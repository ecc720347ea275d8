import Aegis.Ke.Kstack

/-!
# The first threads have kernel stacks of their own
-/

namespace Aegis.KstackSys

variable {s s' : KstackSys} {op : KstackOp}

/-- Live threads are numbered apart, below the next number, which a thread after the last slot can
have but not use. -/
structure Numbered (s : KstackSys) : Prop where
  next : 1 ≤ s.nextTid ∧ s.nextTid ≤ maxThreads + 1
  tid : ∀ t ∈ s.live, 1 ≤ t ∧ t < s.nextTid
  nodup : s.live.Nodup

theorem vmmMapKstack_of_le {tid : Nat} (h1 : 1 ≤ tid) (h2 : tid ≤ maxThreads) (mem : Bool) :
    (vmmMapKstack (u32 tid) mem).2 = if mem then some (kstackBase tid + pageSize) else none := by
  have hu : u32 tid = tid := Nat.mod_eq_of_lt (by unfold maxThreads at h2; omega)
  rw [vmmMapKstack, hu, if_neg (by omega)]
  cases mem <;> rfl

theorem Numbered.creates (h : Numbered s) (hop : s.Early op) : s.Creates op := by
  cases op with
  | exit => trivial
  | create object mem =>
    rintro - rfl rfl
    unfold pspCreateThread
    rw [vmmMapKstack_of_le h.next.1 (hop ⟨_, rfl⟩)]
    rfl

theorem Numbered.step (h : Numbered s) (hop : s.Early op) (hs : s.step op = some s') :
    Numbered s' := by
  cases op with
  | exit tid =>
    obtain ⟨-, hs⟩ := Option.ite_none_right_eq_some.1 hs
    cases hs
    exact ⟨h.next, fun t ht => h.tid t (List.mem_of_mem_erase ht), h.nodup.erase tid⟩
  | create object mem =>
    cases hs
    unfold pspCreateThread
    split
    · exact h
    · next hobj =>
      have hle := hop ⟨mem, by simpa using hobj⟩
      have hnext : u64 (s.nextTid + 1) = s.nextTid + 1 :=
        Nat.mod_eq_of_lt (by unfold maxThreads at hle; omega)
      rw [vmmMapKstack_of_le h.next.1 hle, hnext]
      have hbelow : ∀ t ∈ s.live, 1 ≤ t ∧ t < s.nextTid + 1 := fun t ht =>
        ⟨(h.tid t ht).1, Nat.lt_succ_of_lt (h.tid t ht).2⟩
      cases mem with
      | false => exact ⟨⟨Nat.le_add_left .., Nat.succ_le_succ hle⟩, hbelow, h.nodup⟩
      | true =>
        refine ⟨⟨Nat.le_add_left .., Nat.succ_le_succ hle⟩, ?_, ?_⟩
        · exact List.forall_mem_cons.2 ⟨⟨h.next.1, Nat.lt_succ_self _⟩, hbelow⟩
        · exact List.nodup_cons.2 ⟨fun hm => lt_irrefl _ (h.tid _ hm).2, h.nodup⟩

theorem Numbered.separate (h : Numbered s) : s.Separate := by
  refine h.nodup.imp_of_mem fun {t u} ht hu hne a => ?_
  have ht := h.tid t ht
  have hu := h.tid u hu
  have hn := h.next.2
  unfold maxThreads at hn
  have ht' : u32 t = t := Nat.mod_eq_of_lt (by omega)
  have hu' : u32 u = u := Nat.mod_eq_of_lt (by omega)
  rw [ht', hu']
  unfold kstackBase kstackStride
  omega

/-- **The first `MAX_THREADS` threads are created whenever there is memory, on stacks of their
own.** -/
theorem creates_separate_of_early (ops : List KstackOp) (h : Run.Legal step Early boot ops) :
    Run.Legal step Creates boot ops ∧ Run.Always step Separate boot ops := by
  have hboot : Numbered boot := ⟨by decide, by decide, by decide⟩
  constructor
  · exact Run.legal_imp (fun _ _ => Numbered.creates) (fun _ _ _ => Numbered.step) hboot h
  · apply Run.Always.imp fun s => Numbered.separate
    exact Run.always_of_legal (fun _ _ _ => Numbered.step) hboot h

/-- Two threads, of which the first exits. -/
theorem creates_separate_two :
    let ops := [.create true true, .create true true, .exit 2, .create true false]
    Run.Legal step Creates boot ops ∧ Run.Always step Separate boot ops := by
  refine creates_separate_of_early _ ?_
  decide +kernel

/-- 255 threads are created one after the other, and each exits. Then there are no more. -/
theorem no_thread_after_exits :
    ∃ s, Run.run step boot ((List.range 255).flatMap fun t => [.create true true, .exit (t + 2)]) =
        some s ∧ s.live = [idleTid] ∧ (s.pspCreateThread true true).1 = .noMemory := by
  decide +kernel

end Aegis.KstackSys
