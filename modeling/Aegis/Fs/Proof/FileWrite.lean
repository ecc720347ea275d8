import Aegis.Fs.FileWrite
import Aegis.Fs.Proof.FileData

/-!
# `vfs_write` and the length of the buffer

`Sound` is what keeps the copies of later writes in the buffer: its length is the recorded capacity,
and the size of the file is within it. A step that stores past the end is one of those that `WriteOk`
excludes: `off + n` wraps, or the buffer that the call brings back is too short for the offset it
finds behind the allocation.
-/

namespace Aegis

open Function

variable {s s' : WriteSys} {t f : Nat} {bytes : List UInt8} {heap : Bool} {junk : Nat → UInt8}
variable {need off : Nat} {d : FileData}

theorem FileData.store_rest (d : FileData) {i : Nat} (h : i < off ∨ off + bytes.length ≤ i) :
    (d.store off bytes).data i = d.data i := by
  show (if off ≤ i then (bytes[i - off]?).getD (d.data i) else d.data i) = d.data i
  split_ifs with hoff
  · rw [List.getElem?_eq_none (by omega)]
    rfl
  · rfl

theorem FileData.store_size_le (hsize : d.size ≤ d.cap) (hend : off + bytes.length ≤ d.cap)
    (hlt : d.cap < 2 ^ 64) : (d.store off bytes).size ≤ d.cap := by
  show (if u64 (off + bytes.length) > d.size then u64 (off + bytes.length) else d.size) ≤ d.cap
  rw [u64_of_lt (by omega)]
  split_ifs <;> omega

theorem FileData.grow_of_le (h : need ≤ d.cap) :
    d.grow need heap junk = some d := if_neg (not_lt.2 h)

theorem FileData.grow_of_lt (h : d.cap < need) :
    d.grow need heap junk = if heap then some (d.moveTo (d.grownCap need) junk) else none
    := if_pos h

theorem kalloc_le {n : Nat} (h : kalloc n heap = true) : n < 2 ^ 64 := by
  simp only [kalloc, Bool.and_eq_true, decide_eq_true_eq] at h
  omega

namespace WriteSys

variable {p : PendingWrite}

/-- What every write leaves of the buffer. -/
structure Sound (s : WriteSys) : Prop where
  cap : s.data.cap = s.len
  size : s.data.size ≤ s.data.cap
  lt : s.data.cap < 2 ^ 64
  pend : ∀ t p, s.pend t = some p → p.ncap < 2 ^ 64

theorem init_sound (access : Nat → Access) : (init access).Sound :=
  ⟨rfl, le_rfl, Nat.two_pow_pos 64, fun _ _ h => by cases h⟩

theorem stores_of_le {s0 : WriteSys} (hcap : s.data.cap = s.len) (hsize : s.data.size ≤ s.data.cap)
    (hlt : s.data.cap < 2 ^ 64) (hend : s.off f + bytes.length ≤ s.data.cap)
    (hkeep : ∀ i < s0.data.size, s.data.data i = s0.data.data i) :
    s0.Stores (s.store f bytes) (s.off f) bytes.length where
  upper := hend
  cap := hcap
  size := FileData.store_size_le hsize hend hlt
  rest i hi hout := (FileData.store_rest s.data hout).trans (hkeep i hi)

theorem store_offset (s : WriteSys) (f : Nat) (bytes : List UInt8) :
    ((s.store f bytes).file f).offset = u64 (s.off f + bytes.length) := by
  simp [store, FileState.setOffset]

theorem Stores.sound {off n : Nat} (h : s.Stores s' off n) (hlt : s'.data.cap < 2 ^ 64)
    (hp : ∀ t p, s'.pend t = some p → p.ncap < 2 ^ 64) : s'.Sound := ⟨h.cap, h.size, hlt, hp⟩

/-! ## The pieces of the call -/

/-- What a call that needs more room than there is goes on with. -/
def request (s : WriteSys) (f : Nat) (bytes : List UInt8) (junk : Nat → UInt8) : PendingWrite :=
  ⟨f, bytes, s.data.grownCap (u64 (s.off f + bytes.length)), junk⟩

theorem enter_cases (s : WriteSys) (t f : Nat) (bytes : List UInt8) (heap : Bool)
    (junk : Nat → UInt8) :
    ((s.file f).Denied ∧ s.enter t f bytes heap junk = (some .accessDenied, s)) ∨
    (¬ (s.file f).Denied ∧ u64 (s.off f + bytes.length) ≤ s.data.cap ∧
      s.enter t f bytes heap junk = (some .success, s.store f bytes)) ∨
    (¬ (s.file f).Denied ∧ s.data.cap < u64 (s.off f + bytes.length) ∧
      kalloc (s.data.grownCap (u64 (s.off f + bytes.length))) heap = false ∧
      s.enter t f bytes heap junk = (some .noMemory, s)) ∨
    (¬ (s.file f).Denied ∧ s.data.cap < u64 (s.off f + bytes.length) ∧
      kalloc (s.data.grownCap (u64 (s.off f + bytes.length))) heap = true ∧
      s.enter t f bytes heap junk = (none, { s with
        pend := update s.pend t (some (s.request f bytes junk)) })) := by
  unfold enter
  by_cases hd : (s.file f).Denied
  · exact .inl ⟨hd, if_pos hd⟩
  rw [if_neg hd]
  by_cases hn : u64 (s.off f + bytes.length) > s.data.cap
  · simp only [if_pos hn]
    cases hk : kalloc (s.data.grownCap (u64 (s.off f + bytes.length))) heap with
    | false => exact .inr (.inr (.inl ⟨hd, hn, rfl, by simp⟩))
    | true => exact .inr (.inr (.inr ⟨hd, hn, rfl, by simp [request]⟩))
  · exact .inr (.inl ⟨hd, not_lt.1 hn, if_neg hn⟩)

theorem enter_inside (h : s.Sound) :
    WriteInside s (.enter t f bytes heap junk) ↔ WriteOk s (.enter t f bytes heap junk) := by
  have hlt := h.lt
  simp only [WriteInside, WriteOk]
  obtain ⟨hd, he⟩ | ⟨hd, hn, he⟩ | ⟨hd, hn, -, he⟩ | ⟨hd, hn, -, he⟩ :=
    enter_cases s t f bytes heap junk <;> rw [he]
  · simp [hd]
  · simp only [if_true, hd, hn, not_false_eq_true, forall_const]
    constructor
    · intro hs
      have hend : s.off f + bytes.length ≤ s.data.cap := hs.upper
      omega
    · intro hw
      rw [u64_of_lt hw] at hn
      exact stores_of_le h.cap h.size hlt hn fun _ _ => rfl
  · simp [hd, hn]
  · simp [hd, hn]

theorem relock_of_lt (h : s.data.cap < u64 (s.off p.file + p.bytes.length)) :
    s.relock t p = ({ s with
      data := s.data.moveTo p.ncap p.junk
      len := p.ncap
      pend := update s.pend t none } : WriteSys).store p.file p.bytes := if_pos h

theorem relock_of_le (h : u64 (s.off p.file + p.bytes.length) ≤ s.data.cap) :
    s.relock t p = ({ s with pend := update s.pend t none } : WriteSys).store p.file p.bytes :=
  if_neg (not_lt.2 h)

theorem relock_stores (h : s.Sound) (hp : p.ncap < 2 ^ 64) :
    s.Stores (s.relock t p) (s.off p.file) p.bytes.length ↔
      s.off p.file + p.bytes.length ≤ max s.data.cap p.ncap := by
  have hlt := h.lt
  have hsize := h.size
  rcases lt_or_ge s.data.cap (u64 (s.off p.file + p.bytes.length)) with hn | hn
  · rw [relock_of_lt hn]
    constructor
    · intro hs
      exact hs.upper.trans (le_max_right _ _)
    · intro hle
      rw [u64_of_lt (by omega)] at hn
      have hend : s.off p.file + p.bytes.length ≤ p.ncap := by omega
      exact stores_of_le rfl (show s.data.size ≤ p.ncap by omega) hp hend fun i hi => if_pos hi
  · rw [relock_of_le hn]
    constructor
    · intro hs
      exact hs.upper.trans (le_max_left _ _)
    · intro hle
      rw [u64_of_lt (by omega)] at hn
      exact stores_of_le h.cap hsize hlt hn fun _ _ => rfl

theorem step_inside (h : s.Sound) (a : WriteOp) : WriteInside s a ↔ WriteOk s a := by
  cases a with
  | seek f off => exact Iff.rfl
  | enter t f bytes heap junk => exact enter_inside h
  | relock t =>
    constructor
    · intro hi p hp
      exact (relock_stores h (h.pend t p hp)).1 (hi p hp)
    · intro hok p hp
      exact (relock_stores h (h.pend t p hp)).2 (hok p hp)

/-! ## Runs -/

theorem enter_sound (h : s.Sound) (hi : WriteInside s (.enter t f bytes heap junk)) :
    (s.enter t f bytes heap junk).2.Sound := by
  simp only [WriteInside] at hi
  obtain ⟨-, he⟩ | ⟨-, -, he⟩ | ⟨-, -, -, he⟩ | ⟨-, -, hk, he⟩ :=
    enter_cases s t f bytes heap junk <;> rw [he] at hi ⊢
  · exact h
  · exact Stores.sound hi h.lt h.pend
  · exact h
  · refine ⟨h.cap, h.size, h.lt, fun t' p hp => ?_⟩
    simp only [update_apply] at hp
    split_ifs at hp
    · cases hp
      exact kalloc_le hk
    · exact h.pend t' p hp

theorem relock_sound (h : s.Sound) (hp : s.pend t = some p) (hi : WriteInside s (.relock t)) :
    (s.relock t p).Sound := by
  have hpend : ∀ t' q, update s.pend t none t' = some q → q.ncap < 2 ^ 64 := by
    intro t' q hq
    rw [update_apply] at hq
    split_ifs at hq
    exact h.pend t' q hq
  have hs := hi p hp
  rcases lt_or_ge s.data.cap (u64 (s.off p.file + p.bytes.length)) with hn | hn
  · rw [relock_of_lt hn] at hs ⊢
    exact hs.sound (h.pend t p hp) hpend
  · rw [relock_of_le hn] at hs ⊢
    exact hs.sound h.lt hpend

theorem step_sound {a : WriteOp} (h : s.Sound) (hi : WriteInside s a)
    (hs : writeStep s a = some s') : s'.Sound := by
  cases a with
  | seek f off =>
    cases hs
    exact ⟨h.cap, h.size, h.lt, h.pend⟩
  | enter t f bytes heap junk =>
    rw [writeStep] at hs
    split at hs
    · cases hs
      exact enter_sound h hi
    · cases hs
  | relock t =>
    obtain ⟨p, hp, rfl⟩ := Option.map_eq_some_iff.1 hs
    exact relock_sound h hp hi

theorem vfsWrite_of_allowed (h : ¬ (s.file f).Denied) :
    s.data.vfsWrite (s.file f) bytes heap junk =
      match s.data.grow (u64 (s.off f + bytes.length)) heap junk with
      | none => (.noMemory, s.data, (s.file f).offset)
      | some d => (.success, d.store (s.off f) bytes, u64 (s.off f + bytes.length)) := if_neg h

/-- With no other thread, the pieces are the call of the sequential model. -/
theorem alone_eq (s : WriteSys) (t f : Nat) (bytes : List UInt8) (heap : Bool)
    (junk : Nat → UInt8) :
    s.data.vfsWrite (s.file f) bytes
        (kalloc (s.data.grownCap (u64 (s.off f + bytes.length))) heap) junk =
      ((s.alone t f bytes heap junk).1, (s.alone t f bytes heap junk).2.data,
        ((s.alone t f bytes heap junk).2.file f).offset) := by
  unfold alone
  obtain ⟨hd, he⟩ | ⟨hd, hn, he⟩ | ⟨hd, hn, hk, he⟩ | ⟨hd, hn, hk, he⟩ :=
    enter_cases s t f bytes heap junk <;> rw [he]
  · exact if_pos hd
  · rw [vfsWrite_of_allowed hd, FileData.grow_of_le hn, store_offset]
    rfl
  · rw [vfsWrite_of_allowed hd, hk, FileData.grow_of_lt hn]
    rfl
  · simp only [update_self, Option.elim_some]
    have hr := relock_of_lt (s := { s with
      pend := update s.pend t (some (s.request f bytes junk)) }) (t := t)
      (p := s.request f bytes junk) hn
    rw [vfsWrite_of_allowed hd, hk, FileData.grow_of_lt hn, hr, request, store_offset]
    rfl

end WriteSys

/-- The steps of `vfs_write` that stay in the buffer, in every run of several threads: the writes of
a run all stay in it exactly if no end wraps and no call comes back with too short a buffer. -/
theorem vfsWrite_inside_iff (access : Nat → Access) (ops : List WriteOp) :
    Run.Legal writeStep WriteInside (.init access) ops ↔
      Run.Legal writeStep WriteOk (.init access) ops :=
  Run.legal_iff_legal (fun _ a h => WriteSys.step_inside h a)
    (fun _ _ _ h hi hs => WriteSys.step_sound h hi hs) (WriteSys.init_sound access) ops

-- The file grows to a page while the first call, which appends, has its page but not the lock.
example : ¬ Run.Legal writeStep WriteOk
    (.init fun f => if f = 0 then fileAppendData else fileWriteData)
    [.enter 0 0 [1] true fun _ => 0, .seek 1 4095, .enter 1 1 [2] true fun _ => 0, .relock 1,
      .relock 0] := by decide +kernel

/-- Sixteen bytes at `-2`: the end is 14, and the copy starts before the buffer. -/
theorem vfsWrite_wraps :
    ∃ s, Run.run writeStep (.init fun _ => fileWriteData)
        [.enter 0 0 [1] true fun _ => 0, .relock 0, .seek 0 (2 ^ 64 - 2)] = some s ∧
      (s.enter 0 0 (List.replicate 16 7) true fun _ => 0).1 = some .success ∧
      ¬ WriteInside s (.enter 0 0 (List.replicate 16 7) true fun _ => 0) := by
  obtain ⟨s, hs, hst, hoff, hcap⟩ : ∃ s, Run.run writeStep (.init fun _ => fileWriteData)
        [.enter 0 0 [1] true fun _ => 0, .relock 0, .seek 0 (2 ^ 64 - 2)] = some s ∧
      (s.enter 0 0 (List.replicate 16 7) true fun _ => 0).1 = some .success ∧
      s.off 0 = 2 ^ 64 - 2 ∧
      (s.enter 0 0 (List.replicate 16 7) true fun _ => 0).2.data.cap = 4096 := by decide +kernel
  refine ⟨s, hs, hst, fun hi => ?_⟩
  simp only [WriteInside, if_pos hst] at hi
  have hend := hi.upper
  rw [hoff, hcap] at hend
  exact absurd hend (by decide)

end Aegis
