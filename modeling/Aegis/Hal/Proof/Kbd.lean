import Aegis.Hal.Kbd
import Aegis.Lib.RingBuffer
import Aegis.Lib.Trace

/-!
# Typeahead

`Queues` relates the ring of `kbd.c` to the queue, also in the middle of a `kbd_getchar`: the front
stays where it is until the call has read it.
-/

namespace Aegis

open RingBuffer

def Kbd.ring (k : Kbd) (n : Nat) : Buffer UInt8 := ⟨k.cell, k.r, k.w, n⟩

/-- The ring holds the queue. -/
structure Queues (k : Kbd) (t : Typeahead) : Prop where
  ok : Ok kbdBuf (k.ring t.queue.length)
  lt : t.queue.length < kbdBuf
  queue : contents kbdBuf (k.ring t.queue.length) = t.queue
  shift : k.shift = t.shift
  reader : k.reader = t.reader
  front : k.reader ≠ .outside → t.queue ≠ []
  loaded : k.reader = .loaded → t.queue.head? = some k.c

variable {k : Kbd} {t : Typeahead}

theorem Queues.tests (h : Queues k t) :
    ((k.w + 1) % kbdBuf ≠ k.r ↔ t.queue.length < 31) ∧ (k.r = k.w ↔ t.queue = []) := by
  have hw : k.w = (k.r + t.queue.length) % 32 := h.ok.w_eq
  have hr : k.r < 32 := h.ok.r_lt
  have hlt : t.queue.length < 32 := h.lt
  rw [← List.length_eq_zero_iff]
  simp only [kbdBuf]
  omega

theorem Queues.isr (h : Queues k t) (sc : UInt8) : Queues (k.isr sc) (t.isr sc) := by
  have hroom := h.tests.1
  obtain ⟨hok, hlt, hq, hs, hr, hf, hl⟩ := h
  simp only [Kbd.isr, Typeahead.isr, ← hs, hroom]
  split_ifs with hc
  · refine ⟨?_, ?_, ?_, rfl, hr, fun _ => by simp, fun he => ?_⟩
    · rw [List.length_append]
      exact push_ok hok hlt _
    · rw [List.length_append]
      exact Nat.succ_lt_succ hc.2
    · rw [List.length_append]
      exact (contents_push hok hlt _).trans (congrArg (· ++ _) hq)
    · rw [List.head?_append, hl he]
      rfl
  · exact ⟨hok, hlt, hq, rfl, hr, hf, hl⟩

theorem Queues.getchar (h : Queues k t) :
    k.getchar.1 = t.getchar.1 ∧ Queues k.getchar.2 t.getchar.2 := by
  have hempty := h.tests.2
  obtain ⟨hok, hlt, hq, hs, hr, hf, hl⟩ := h
  have hpop := contents_pop hok
  rw [hq] at hpop
  unfold Kbd.getchar Typeahead.getchar
  rw [← hr]
  cases hk : k.reader with
  | outside =>
    simp only [hempty]
    split_ifs with he
    · exact ⟨rfl, hok, hlt, hq, hs, hr, hf, hl⟩
    · exact ⟨rfl, hok, hlt, hq, hs, rfl, fun _ => he, fun h => by cases h⟩
  | nonempty =>
    have hne := hf (by simp [hk])
    refine ⟨rfl, hok, hlt, hq, hs, rfl, fun _ => hne, fun _ => ?_⟩
    rw [hpop (List.length_pos_iff.2 hne)]
    rfl
  | loaded =>
    have hne := List.length_pos_iff.2 (hf (by simp [hk]))
    refine ⟨by rw [hl hk]; rfl, ?_, ?_, ?_, hs, rfl, fun h => absurd rfl h, fun h => by cases h⟩ <;>
      rw [List.length_tail]
    · exact pop_ok hok hne
    · exact (Nat.sub_le _ _).trans_lt hlt
    · exact (congrArg List.tail (hpop hne)).symm

theorem queues_init : Queues .init .init :=
  ⟨⟨Nat.zero_le _, by decide, rfl⟩, by decide, rfl, rfl, rfl, fun h => absurd rfl h,
    fun h => by cases h⟩

/-- **Typeahead.** However interrupts and the statements of the reader alternate, the calls of
`kbd_getchar` return what they return for a queue of at most 31 characters. -/
theorem kbd_typeahead (ops : List (Option UInt8)) :
    Trace.trace kbdStep .init ops = Trace.trace typeaheadStep .init ops := by
  refine Trace.trace_eq (R := Queues) (fun k t a _ => by cases a <;> rfl)
    (fun k t a o k' o' t' h hk ht => ?_) queues_init ops
  cases a with
  | none =>
    have hstep := h.getchar
    rwa [Option.some.inj hk, Option.some.inj ht] at hstep
  | some sc =>
    cases hk
    cases ht
    exact ⟨rfl, h.isr sc⟩

end Aegis
