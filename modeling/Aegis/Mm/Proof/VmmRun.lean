import Aegis.Mm.Proof.HostPages
import Aegis.Mm.Proof.HostProtect
import Aegis.Mm.Proof.VmmHw

/-!
# Runs of the calls on user memory

For every run: the VADs of both builds are sound, and in the host build what a call does to the
VADs, arrays and pages is its `Effect` on the user's map.
-/

namespace Aegis

/-! ## The host build -/

section
variable (oom : Nat → Bool) {s : Host}

/-- Every call returns, keeps the invariant and has its effect. -/
theorem Host.call_spec (h : HostInv s) (c : MemCall) (hc : c.Legal) :
    ∃ r s', s.call oom c = .ok (r, s') ∧ HostInv s' ∧ Effect s.as.slots s.user r s'.user c := by
  cases c with
  | range c =>
    cases c with
    | alloc base size prot type =>
      obtain ⟨hinv, heff⟩ := vmmAllocUser_spec h hc.1 hc.2 prot type
      refine ⟨_, _, rfl, hinv, ?_⟩
      simp only [Effect]
      split
      · next hst =>
        rw [if_pos hst] at heff
        obtain ⟨va, rfl, hbase, hnone, huser⟩ := heff
        exact ⟨hbase, hnone, huser⟩
      · next hst =>
        rw [if_neg hst] at heff
        exact heff
    | free base size =>
      obtain ⟨st, s', hr, hinv, heff⟩ := vmmFreeUser_spec oom h base hc.2
      refine ⟨{ status := st }, s', ?_, hinv, heff⟩
      rw [call, rangeCall, hr]
      rfl
    | protect base size prot =>
      obtain ⟨st, old, s', hr, hinv, heff⟩ := vmmProtectUser_spec oom h base size prot
      refine ⟨{ status := st }, s', ?_, hinv, heff⟩
      rw [call, rangeCall, hr]
      rfl
  | write va src =>
    by_cases hsrc : src = []
    · refine ⟨{ status := .invalidParameter }, s, ?_, h, 0, Nat.zero_le _, (fun he => by cases he),
        (fun j hj => absurd hj (Nat.not_lt_zero j)), ?_⟩
      · rw [call, vmmWriteAspace, if_pos hsrc]
        rfl
      · rw [List.take_zero, UserMap.write_nil]
    · obtain ⟨st, s', j, hr, hinv, hj, hall, hbytes, huser⟩ :=
        Host.writeLoop_spec oom h hc src le_rfl
      refine ⟨{ status := st }, s', ?_, hinv, j, hj, hall, hbytes, huser⟩
      rw [call, vmmWriteAspace, if_neg hsrc, hr]
      rfl
  | read va n =>
    by_cases hn : n = 0
    · refine ⟨{ status := .invalidParameter }, s, ?_, h, Nat.zero_le _, (fun he => by cases he),
        (fun j hj => absurd hj (Nat.not_lt_zero j)), rfl⟩
      rw [call, vmmReadAspace, if_pos hn]
      rfl
    · obtain ⟨st, bytes, s', hr, hinv, huser, hlen, hall, hbytes⟩ :=
        Host.readLoop_spec oom h hc (n := n) le_rfl
      refine ⟨{ status := st, bytes }, s', ?_, hinv, hlen, hall, hbytes, huser⟩
      rw [call, vmmReadAspace, if_neg hn, hr]
      rfl

theorem Host.step_inv (s : Host) (c : MemCall) (h : HostInv s) (hc : c.Legal) :
    ∃ s', s.step oom c = some s' ∧ HostInv s' := by
  obtain ⟨r, s', hr, hinv, -⟩ := Host.call_spec oom h c hc
  exact ⟨s', by rw [step, hr], hinv⟩

theorem Host.run_inv {cs : List MemCall} (hcs : ∀ c ∈ cs, c.Legal) :
    ∃ s, Run.run (Host.step oom) Host.init cs = some s ∧ HostInv s :=
  Run.run_inv (Host.step_inv oom) Host.init_inv (Run.legal_of_forall fun c hc _ => hcs c hc)

/-- Nothing is mapped at first, and from then on every call, after every run, has its effect on the
user's pages. -/
theorem host_refines_userMap :
    Host.init.user = (fun _ => none) ∧
      ∀ cs : List MemCall, (∀ c ∈ cs, c.Legal) → ∃ s,
        Run.run (Host.step oom) Host.init cs = some s ∧ ∀ c : MemCall, c.Legal → ∃ r s',
          s.call oom c = .ok (r, s') ∧ Effect s.as.slots s.user r s'.user c := by
  refine ⟨rfl, fun cs hcs => ?_⟩
  obtain ⟨s, hs, hinv⟩ := Host.run_inv oom hcs
  refine ⟨s, hs, fun c hc => ?_⟩
  obtain ⟨r, s', hr, -, heff⟩ := Host.call_spec oom hinv c hc
  exact ⟨r, s', hr, heff⟩

end

/-- Two pages are written across their border, split by a protection and read back. -/
def splitCalls : List MemCall :=
  [.range (.alloc 0x10000 0x3000 pageReadWrite 0), .write 0x10FFE [1, 2, 3, 4],
    .range (.protect 0x11000 0x1000 pageReadOnly), .range (.free 0x12000 0x1000)]

theorem host_refines_userMap_split : ∃ s r s',
    Run.run (Host.step fun _ => false) Host.init splitCalls = some s ∧
    s.call (fun _ => false) (.read 0x10FFD 6) = .ok (r, s') ∧ r.bytes = [0, 1, 2, 3, 4, 0] ∧
    Effect s.as.slots s.user r s'.user (.read 0x10FFD 6) := by
  obtain ⟨s, hs, hcall⟩ := (host_refines_userMap fun _ => false).2 splitCalls (by decide)
  obtain ⟨r, s', hr, heff⟩ := hcall (.read 0x10FFD 6) (by decide)
  refine ⟨s, r, s', hs, hr, ?_, heff⟩
  obtain ⟨s1, hs1, r1, hr1, hb⟩ : ∃ s1,
      Run.run (Host.step fun _ => false) Host.init splitCalls = some s1 ∧
        ∃ r1, s1.call (fun _ => false) (.read 0x10FFD 6) = .ok r1 ∧
          r1.1.bytes = [0, 1, 2, 3, 4, 0] := by decide +kernel
  cases hs.symm.trans hs1
  cases hr.symm.trans hr1
  exact hb

/-! ## Both builds -/

theorem VadInv.sound {α : Type} {as : Aspace α} (h : VadInv as) (hne : NoneEmpty as.slots) :
    VadsSound as where
  count := h.count
  aligned v hv := ⟨(h.ok v hv).start, (h.ok v hv).stop⟩
  lt := hne
  top v hv := Nat.sub_le_of_le_add (h.ok v hv).top
  disjoint := by
    refine h.apart.imp_of_mem fun {v u} hv hu hoff => ?_
    have h1 := hne v hv
    have h2 := hne u hu
    simp only [Apart.Off] at hoff
    omega
  committed := h.committed
  limit := h.limit

section
variable {σ : Type} (m : Mmu σ)

theorem HwState.step_inv (s : HwState σ) (c : RangeCall) (h : VadInv s.as ∧ NoneEmpty s.as.slots)
    (hc : c.Legal) : ∃ s', HwState.step m s c = some s' ∧ VadInv s'.as ∧ NoneEmpty s'.as.slots := by
  cases c with
  | alloc base size prot type =>
    exact ⟨_, rfl, vmmAllocUser_inv h.1 hc.1 size prot type,
      vmmAllocUser_noneEmpty h.1 h.2 hc.1 hc.2 prot type⟩
  | free base size =>
    exact ⟨_, rfl, vmmFreeUser_inv h.1 base size, vmmFreeUser_noneEmpty h.1 h.2 base size⟩
  | protect base size prot =>
    obtain ⟨r, hr, hinv⟩ := vmmProtectUser_keeps prot
      (fun _ => contained_noneEmpty m prot) h.1 h.2 base size
    exact ⟨r.2.2, by rw [step, hr], hinv⟩

end

/-- The VADs are sound after every run, in the host build whether or not memory can be had, in the
hardware build whatever the page tables do. -/
theorem vads_sound :
    (∀ (oom : Nat → Bool) (cs : List MemCall), (∀ c ∈ cs, c.Legal) →
      ∃ s, Run.run (Host.step oom) Host.init cs = some s ∧ VadsSound s.as) ∧
    ∀ (σ : Type) (m : Mmu σ) (mmu : σ) (cs : List RangeCall), (∀ c ∈ cs, c.Legal) →
      ∃ s, Run.run (HwState.step m) ⟨Aspace.init Unit, mmu⟩ cs = some s ∧ VadsSound s.as := by
  refine ⟨fun oom cs hcs => ?_, fun σ m mmu cs hcs => ?_⟩
  · obtain ⟨s, hs, hinv⟩ := Host.run_inv oom hcs
    exact ⟨s, hs, hinv.vads.sound hinv.noneEmpty⟩
  · obtain ⟨s, hs, hinv⟩ := Run.run_inv (I := fun s : HwState σ => VadInv s.as ∧ NoneEmpty s.as.slots)
      (HwState.step_inv m) (s := ⟨Aspace.init Unit, mmu⟩)
      ⟨Aspace.init_inv Unit, (fun _ hv => by cases hv)⟩
      (Run.legal_of_forall fun c hc _ => hcs c hc)
    exact ⟨s, hs, hinv.1.sound hinv.2⟩

theorem vads_sound_split : ∃ s, Run.run (Host.step fun _ => false) Host.init splitCalls = some s ∧
    s.as.slots.length = 2 ∧ VadsSound s.as := by
  obtain ⟨s, hs, hsound⟩ := vads_sound.1 (fun _ => false) splitCalls (by decide)
  refine ⟨s, hs, ?_, hsound⟩
  have hlen : (Run.run (Host.step fun _ => false) Host.init splitCalls).map
      (fun s => s.as.slots.length) = some 2 := by decide +kernel
  rw [hs] at hlen
  exact Option.some.inj hlen

end Aegis
