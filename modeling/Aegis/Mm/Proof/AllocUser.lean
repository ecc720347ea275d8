import Aegis.Ke.Proof.MemCall
import Aegis.Mm.Proof.VadLookup
import Aegis.Mm.VmmHost

/-!
# What `vmm_alloc_user` promises

The size is rounded up before it is compared with anything, and on `u64`: a size in the last page of
the 64-bit numbers rounds up to 0, and the VAD is empty (`vmmAllocUser_real_iff`). A place that the
kernel chooses is the one at `brk`, which only moves when such a call succeeds; memory that has been
mapped there by address is in its way for good (`vmmAllocUser_chosen_iff`).
-/

namespace Aegis

/-- The call has added a VAD, and `[va, va + size)` is in it and in the user half. -/
def RealAlloc {α : Type} (l l' : List (Slot α)) (va size : Nat) : Prop :=
  ∃ v, l' = l ++ [v] ∧ v.start < v.stop ∧
    ∀ a, va ≤ a → a < va + size → v.Has a ∧ a ≤ userCanonicalTop

/-- `[brk, brk + size)` is in the user half, and no VAD has a byte of it. -/
def RoomAtBrk {α : Type} (as : Aspace α) (size : Nat) : Prop :=
  as.brk + size ≤ userCanonicalTop + 1 ∧ ∀ v ∈ as.slots, v.stop ≤ as.brk ∨ as.brk + size ≤ v.start

theorem Host.vmmAllocUser_cases (s : Host) (base size : Nat) (prot : Prot) (type : Nat) :
    (s.vmmAllocUser base size prot type).1 ≠ .success ∧
      (s.vmmAllocUser base size prot type).2.2 = s ∨
    ∃ va shadow, allocTarget s.as base (pageAlignUp size) = .ok va ∧
      s.vmmAllocUser base size prot type = (.success, va,
        { s with as := s.as.addVad base va (pageAlignUp size) prot type shadow }) := by
  unfold Host.vmmAllocUser
  cases hp : allocPlan s.as base size with
  | error st => exact .inl ⟨allocPlan_error hp, rfl⟩
  | ok va => exact .inr ⟨va, _, (allocPlan_eq_ok.1 hp).2.2, rfl⟩

/-! ## Sizes -/

/-- The VAD that is added has the range unless the size has been rounded up to 0. -/
theorem realAlloc_iff {α : Type} {as : Aspace α} {base size va : Nat} {prot : Prot} {type : Nat}
    {shadow : α} (hz : 0 < size) (hs : size < 2 ^ 64)
    (ht : allocTarget as base (pageAlignUp size) = .ok va) :
    RealAlloc as.slots (as.addVad base va (pageAlignUp size) prot type shadow).slots va size ↔
      size ≤ 2 ^ 64 - 4096 := by
  obtain ⟨-, hout, -⟩ := allocTarget_ok ht
  obtain ⟨-, hu, htop⟩ := inside_user (pageAlignUp_lt size) hout
  have heq := pageAlignUp_eq size
  constructor
  · rintro ⟨v, hv, hlt, -⟩
    obtain rfl : _ = v := List.singleton_inj.1 (List.append_cancel_left hv)
    change va < u64 (va + pageAlignUp size) at hlt
    omega
  · intro hle
    have hup := pageAlignUp_of_le hle
    have hin := htop (by omega)
    refine ⟨_, rfl, ?_, fun a h1 h2 => ⟨⟨h1, ?_⟩, ?_⟩⟩
    · show va < u64 (va + pageAlignUp size)
      omega
    · show a < u64 (va + pageAlignUp size)
      omega
    · omega

/-- **An allocation that succeeds is real exactly if its size can be rounded up.** -/
theorem vmmAllocUser_real_iff (base size : Nat) (prot : Prot) (type : Nat) (hz : 0 < size)
    (hs : size < 2 ^ 64) :
    (∀ (s s' : Host) (va : Nat), s.vmmAllocUser base size prot type = (.success, va, s') →
      (RealAlloc s.as.slots s'.as.slots va size ↔ size ≤ 2 ^ 64 - 4096)) ∧
    ∀ (σ : Type) (m : Mmu σ) (s s' : HwState σ) (va : Nat),
      s.vmmAllocUser m base size prot type = (.success, va, s') →
      (RealAlloc s.as.slots s'.as.slots va size ↔ size ≤ 2 ^ 64 - 4096) := by
  constructor
  · intro s s' va h
    rcases s.vmmAllocUser_cases base size prot type with ⟨hne, -⟩ | ⟨va', shadow, ht, he⟩
    · rw [h] at hne
      exact absurd rfl hne
    · rw [h] at he
      cases he
      exact realAlloc_iff hz hs ht
  · intro σ m s s' va h
    rcases s.vmmAllocUser_cases m base size prot type with ⟨st, hne, he⟩ | ⟨va', -, -, ht, hcase⟩
    · rw [h] at he
      cases he
      exact absurd rfl hne
    · rcases hcase with ⟨-, he⟩ | ⟨-, he⟩
      · rw [h] at he
        cases he
        exact realAlloc_iff hz hs ht
      · rw [h] at he
        cases he

theorem vmmAllocUser_real_page :
    (∃ s', Host.init.vmmAllocUser 0x10000 0x1001 pageReadWrite memCommit = (.success, 0x10000, s') ∧
      RealAlloc [] s'.as.slots 0x10000 0x1001) ∧
    ∃ s', HwState.vmmAllocUser freeMmu ⟨Aspace.init Unit, ()⟩ 0x10000 0x1001 pageReadWrite memCommit =
        (.success, 0x10000, s') ∧ RealAlloc [] s'.as.slots 0x10000 0x1001 := by
  have h := vmmAllocUser_real_iff 0x10000 0x1001 pageReadWrite memCommit (by decide) (by decide)
  exact ⟨⟨_, rfl, (h.1 Host.init _ _ rfl).2 (by decide)⟩,
    ⟨_, rfl, (h.2 Unit freeMmu ⟨Aspace.init Unit, ()⟩ _ _ rfl).2 (by decide)⟩⟩

/-- `NtAllocateVirtualMemory` of almost all addresses there are. -/
theorem vmmAllocUser_empty : ∃ s' : MemSys Unit,
    (MemSys.init World.blank fun _ => ()).ntAllocateVirtualMemory freeMmu (some 0) handleCurrent
      0x10000 (2 ^ 64 - 1) pageReadWrite = .ok (.success, 0x10000, s') ∧
    (s'.mem 0).as.slots.map (fun v => (v.start, v.stop)) = [(0x10000, 0x10000)] ∧
    ¬ RealAlloc [] (s'.mem 0).as.slots 0x10000 (2 ^ 64 - 1) := by
  refine ⟨_, rfl, rfl, ?_⟩
  rintro ⟨v, hv, hlt, -⟩
  obtain rfl := List.singleton_inj.1 hv
  exact absurd hlt (by decide)

/-! ## Places -/

theorem allocTarget_chosen_iff {α : Type} {as : Aspace α} {size : Nat} (hz : 0 < size)
    (hs : size < 2 ^ 64) (hslots : as.slots.length < maxVads)
    (hcap : as.committedPages + size / pageSize ≤ userCommitMax / pageSize) :
    (∃ va, allocTarget as 0 size = .ok va) ↔ RoomAtBrk as size := by
  have htop := userCanonicalTop_eq
  constructor
  · rintro ⟨va, ht⟩
    obtain ⟨rfl, hout, -, -, hoff⟩ := allocTarget_ok ht
    rw [if_pos rfl] at hout hoff
    obtain ⟨-, hu, hin⟩ := inside_user hs hout
    refine ⟨hin (by omega), fun v hv => ?_⟩
    have := hoff v hv
    rw [hu] at this
    omega
  · rintro ⟨hin, hoff⟩
    have hu : u64 (as.brk + size) = as.brk + size := u64_of_lt (by omega)
    have hout : outsideUser as.brk size = false := by
      unfold outsideUser
      rw [hu, sub64_of_le (by omega) (by omega)]
      simp only [decide_eq_false_iff_not]
      omega
    have hover : overlapsAny as.slots as.brk size = false := by
      rw [← Bool.not_eq_true, overlapsAny, List.any_eq_true]
      rintro ⟨v, hv, hb⟩
      have hb : as.brk < v.stop ∧ v.start < u64 (as.brk + size) := of_decide_eq_true hb
      have := hoff v hv
      omega
    refine ⟨as.brk, ?_⟩
    unfold allocTarget
    simp only [if_true, hout, hover, Bool.false_eq_true, if_false, if_neg (not_le.2 hslots),
      if_neg (not_lt.2 hcap)]

theorem allocTarget_ne_noMemory {α : Type} {as : Aspace α} {base size : Nat} {st : Status}
    (h : allocTarget as base size = .error st) : st ≠ .noMemory := by
  rintro rfl
  unfold allocTarget at h
  simp only at h
  split_ifs at h <;> cases h

theorem allocPlan_chosen_iff {α : Type} {as : Aspace α} {size : Nat} (hz : 0 < size)
    (hslots : as.slots.length < maxVads)
    (hcap : as.committedPages + (size + 4095) / pageSize ≤ userCommitMax / pageSize) :
    (∃ va, allocPlan as 0 size = .ok va) ↔ RoomAtBrk as ((size + 4095) / pageSize * pageSize) := by
  have hmax : userCommitMax / pageSize = 8192 := by decide
  unfold pageSize at *
  have hup := @pageAlignUp_of_le size (by omega)
  rw [show (size + 4095) / 4096 * 4096 = pageAlignUp size by omega,
    ← allocTarget_chosen_iff (by omega) (pageAlignUp_lt size) hslots (by unfold pageSize; omega)]
  refine exists_congr fun va => allocPlan_eq_ok.trans ?_
  exact and_iff_right (by omega) |>.trans (and_iff_right (by unfold pageSize; omega))

theorem allocPlan_ne_noMemory {α : Type} {as : Aspace α} {base size : Nat} {st : Status}
    (h : allocPlan as base size = .error st) : st ≠ .noMemory := by
  unfold allocPlan at h
  split_ifs at h
  · cases h
    decide
  · cases h
    decide
  · exact allocTarget_ne_noMemory h

/-- **A place that the kernel chooses does not conflict exactly if the room at `brk` is free.** The
hardware build can still run out of memory for the page tables. -/
theorem vmmAllocUser_chosen_iff (size : Nat) (prot : Prot) (type : Nat) (hz : 0 < size) :
    (∀ s : Host, s.as.slots.length < maxVads →
      s.as.committedPages + (size + 4095) / pageSize ≤ userCommitMax / pageSize →
      ((s.vmmAllocUser 0 size prot type).1 = .success ↔
        RoomAtBrk s.as ((size + 4095) / pageSize * pageSize))) ∧
    ∀ (σ : Type) (m : Mmu σ) (s : HwState σ), s.as.slots.length < maxVads →
      s.as.committedPages + (size + 4095) / pageSize ≤ userCommitMax / pageSize →
      ((s.vmmAllocUser m 0 size prot type).1 ∈ [.success, .noMemory] ↔
        RoomAtBrk s.as ((size + 4095) / pageSize * pageSize)) := by
  constructor
  · intro s hslots hcap
    rw [← allocPlan_chosen_iff hz hslots hcap]
    unfold Host.vmmAllocUser
    cases hp : allocPlan s.as 0 size with
    | error st => exact ⟨fun h => absurd h (allocPlan_error hp), nofun⟩
    | ok va => exact ⟨fun _ => ⟨va, rfl⟩, fun _ => rfl⟩
  · intro σ m s hslots hcap
    rw [← allocPlan_chosen_iff hz hslots hcap]
    unfold HwState.vmmAllocUser
    cases hp : allocPlan s.as 0 size with
    | error st =>
      refine ⟨fun h => ?_, nofun⟩
      simp only [List.mem_cons, List.not_mem_nil, or_false] at h
      exact (h.elim (allocPlan_error hp) (allocPlan_ne_noMemory hp)).elim
    | ok va =>
      refine ⟨fun _ => ⟨va, rfl⟩, fun _ => ?_⟩
      simp only
      split <;> simp

theorem vmmAllocUser_chosen_first :
    (Host.init.vmmAllocUser 0 0x1800 pageReadWrite memCommit).1 = .success ∧
    (HwState.vmmAllocUser freeMmu ⟨Aspace.init Unit, ()⟩ 0 0x1800 pageReadWrite memCommit).1 ∈
      [.success, .noMemory] := by
  have h := vmmAllocUser_chosen_iff 0x1800 pageReadWrite memCommit (by decide)
  exact ⟨(h.1 Host.init (by decide) (by decide)).2 ⟨by decide, nofun⟩,
    (h.2 Unit freeMmu ⟨Aspace.init Unit, ()⟩ (by decide) (by decide)).2 ⟨by decide, nofun⟩⟩

/-- A page at the start of the heap, by its address. -/
def heapPage : MemOp :=
  .newMem (.allocate (some 0) handleCurrent userHeapBase 0x1000 pageReadWrite)

/-- There is nothing else in the address space, and still no place is found. -/
theorem vmmAllocUser_stuck : ∃ s s' : MemSys Unit,
    Run.run (MemSys.memStep freeMmu) (MemSys.init World.blank fun _ => ()) [heapPage] = some s ∧
    (s.mem 0).as.slots.map (fun v => (v.start, v.stop)) = [(userHeapBase, userHeapBase + 0x1000)] ∧
    s.ntAllocateVirtualMemory freeMmu (some 0) handleCurrent 0 0x1000 pageReadWrite =
      .ok (.conflictingAddresses, 0, s') :=
  ⟨_, _, rfl, rfl, rfl⟩

end Aegis
