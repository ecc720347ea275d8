import Aegis.Mm.Proof.RangeSpec
import Aegis.Mm.Proof.VmmRun

/-!
# The calls on ranges, in both builds

What `vmm_protect_user` and `vmm_free_user` do to the bytes that their caller names. A range of pages
is protected as a whole, if it has no hole. The page behind the rounded range is the one that is
missed when a range does not start at a page, and a size that rounds up to 0 stands for a whole VAD.
-/

namespace Aegis

open Outcome

/-! ## Holes -/

section
variable {σ : Type} {m : Mmu σ} {s : HwState σ} {base size : Nat} {prot : Prot}
variable {i nl nm nr stop : Nat} {h h' : Host} {s' : HwState σ} {v : Slot Unit} {oom : Nat → Bool}
  {old : Option Prot}

theorem HwState.protectAt_hole (hv : VadInv s.as) (hr : PageRange base size)
    (hp : protLegal prot = true) (hh : Hole s.as.slots base (base + size)) (k : Nat) :
    HwState.protectAt m prot (k + 1) s base size = .ok (.conflictingAddresses, none, s) := by
  rcases protectRange_pages (fun s : HwState σ => s.as.slots)
      (fun s i v base size stop => .ok (HwState.protectContained m s i v base size stop prot)) hv.count
      hv.apart hr hp with ⟨-, hk⟩ | ⟨hno, -⟩
  · exact hk k
  · exact absurd hh hno

theorem Host.retargets {s s' : Host} (hcov : s.user.Covers base (base + size))
    (huser : s'.user = s.user.protect base (base + size) prot) :
    Retargets s.user base (base + size) prot s'.user := by
  intro q
  rw [huser]
  split
  · next hq =>
    obtain ⟨x, hx⟩ := Option.isSome_iff_exists.1 (hcov q hq)
    refine ⟨x, hx, ?_⟩
    rw [UserMap.protect, UserMap.onRange, if_pos hq, hx]
    rfl
  · next hq =>
    rw [UserMap.protect, UserMap.onRange, if_neg hq]

theorem HwState.protectAt_depth (h : VadInv s.as) (hp : protLegal prot = true) (k : Nat) :
    HwState.protectAt m prot (k + 2) s base size = HwState.protectAt m prot 2 s base size := by
  rcases HwState.protectAt_cases m prot s base size with
    ⟨st, -, hr⟩ | ⟨-, -, ⟨v, i, -, hr⟩ | ⟨v, n, clips, -, -, hchain, hr⟩⟩
  · rw [hr (k + 1), hr 1]
  · rw [hr (k + 1), hr 1]
  · obtain ⟨hclips, ho⟩ := hchain.rounded h.ok
    obtain ⟨r, hr', -⟩ := HwState.protectClips_keeps (m := m) (P := fun _ => True) hp
      (fun _ _ _ _ _ _ _ _ => trivial) h trivial hclips ho
    rw [hr (k + 1), hr 1, hr' k, hr' 0]

/-! ## Ranges of pages -/

theorem Host.vmmProtectUser_pages {s : Host} (h : HostInv s) (hr : PageRange base size)
    (hp : protLegal prot = true) :
    ∃ st old s', s.vmmProtectUser oom base size prot = .ok (st, old, s') ∧
      (∀ k, Host.protectAt oom prot (k + 2) s base size = .ok (st, old, s')) ∧
      (st = .conflictingAddresses ↔ Hole s.as.slots base (base + size)) ∧
      (st = .conflictingAddresses → s' = s) ∧
      (st = .success → Retargets s.user base (base + size) prot s'.user ∧
        old = protAt s.as.slots (base / pageSize)) := by
  obtain ⟨hdown, hup, -⟩ := hr.rounded
  obtain ⟨st, old, s', hall, hiff, hsame, hold⟩ := Host.protectAt_pages oom h hr hp
  refine ⟨st, old, s', hall 0, hall, hiff, hsame, fun hst => ⟨?_, hold hst⟩⟩
  obtain ⟨st1, old1, s1, hr1, -, hspec⟩ := vmmProtectUser_spec oom h base size prot
  rw [Host.vmmProtectUser, hall 0] at hr1
  cases ok.inj hr1
  rw [if_pos hst, hdown, hup] at hspec
  exact Host.retargets hspec.1 hspec.2

theorem retargets_prot {q : Nat} (hr : Retargets h.user base (base + size) prot h'.user) :
    protAt h'.as.slots q =
      if InRange base (base + size) q then some prot else protAt h.as.slots q := by
  have hq := hr q
  rw [← user_prot, ← user_prot]
  split
  · next hin =>
    rw [if_pos hin] at hq
    obtain ⟨x, -, hx⟩ := hq
    rw [hx]
    rfl
  · next hin =>
    rw [if_neg hin] at hq
    rw [hq]

/-- `vmm_protect_user` of a range of pages returns `CONFLICTING_ADDRESSES` for a hole, and only then;
it changes nothing then, and if it succeeds it changes the protection of the range. The calls that it
makes for the clips of a run make no calls. -/
theorem vmmProtectUser_hole_iff :
    (∀ (oom : Nat → Bool) (s : Host) (base size : Nat) (prot : Prot), HostInv s →
      PageRange base size → protLegal prot = true →
      ∃ st old s', s.vmmProtectUser oom base size prot = .ok (st, old, s') ∧
        (∀ k, Host.protectAt oom prot (k + 2) s base size = .ok (st, old, s')) ∧
        (st = .conflictingAddresses ↔ Hole s.as.slots base (base + size)) ∧
        (st = .conflictingAddresses → s' = s) ∧
        (st = .success → Retargets s.user base (base + size) prot s'.user ∧
          old = protAt s.as.slots (base / pageSize))) ∧
    ∀ (σ : Type) (m : Mmu σ) (s : HwState σ) (base size : Nat) (prot : Prot), VadInv s.as →
      NoneEmpty s.as.slots → PageRange base size → protLegal prot = true →
      ∃ st old s', HwState.vmmProtectUser m s base size prot = .ok (st, old, s') ∧
        (∀ k, HwState.protectAt m prot (k + 2) s base size = .ok (st, old, s')) ∧
        (st = .conflictingAddresses ↔ Hole s.as.slots base (base + size)) ∧
        (st = .conflictingAddresses → s' = s) ∧
        (st = .success → (∀ q, protAt s'.as.slots q =
            if InRange base (base + size) q then some prot else protAt s.as.slots q) ∧
          old = protAt s.as.slots (base / pageSize)) := by
  constructor
  · intro oom s base size prot h hr hp
    exact Host.vmmProtectUser_pages h hr hp
  · intro σ m s base size prot hv hne hr hp
    obtain ⟨h, hb⟩ := exists_same hv hne
    obtain ⟨st, old, h', hhost, -, hiff, -, hdone⟩ :=
      @Host.vmmProtectUser_pages base size prot (fun _ => false) h hb.host hr hp
    rcases protectAt_same (m := m) prot 2 hb base size with
      ⟨hd, -⟩ | ⟨st1, old1, h1, s', hr1, hr2, hb1⟩
    · rw [Host.vmmProtectUser, hd] at hhost
      cases hhost
    rw [Host.vmmProtectUser, hr1] at hhost
    cases ok.inj hhost
    have hole : Hole s.as.slots base (base + size) ↔ Hole h.as.slots base (base + size) := by
      rw [← hb.slots, hole_erase]
    refine ⟨st, old, s', hr2, fun k => (HwState.protectAt_depth hv hp k).trans hr2,
      hiff.trans hole.symm, fun hst => ?_, fun hst => ⟨fun q => ?_, ?_⟩⟩
    · have he := HwState.protectAt_hole (m := m) hv hr hp (hole.2 (hiff.1 hst)) 1
      rw [hr2] at he
      cases ok.inj he
      rfl
    · rw [← hb1.slots, ← hb.slots, protAt_erase, protAt_erase]
      exact retargets_prot (hdone hst).1
    · rw [(hdone hst).2, ← hb.slots, protAt_erase]

/-- A page is protected between two others, which makes a run of three VADs. -/
def mixedCalls : List MemCall :=
  [.range (.alloc 0x10000 0x3000 pageReadWrite 0), .range (.protect 0x11000 0x1000 pageReadOnly)]

theorem vmmProtectUser_hole_iff_mixed :
    (∃ s s', Run.run (Host.step fun _ => false) Host.init mixedCalls = some s ∧
      s.vmmProtectUser (fun _ => false) 0x10000 0x3000 pageReadOnly =
        .ok (.success, some pageReadWrite, s') ∧
      Retargets s.user 0x10000 0x13000 pageReadOnly s'.user) ∧
    ∀ m : Mmu Unit, ∃ old s',
      HwState.vmmProtectUser m ⟨Aspace.init Unit, ()⟩ 0x10000 0x3000 pageReadOnly =
        .ok (.conflictingAddresses, old, s') ∧ s' = ⟨Aspace.init Unit, ()⟩ := by
  have hrange : PageRange 0x10000 0x3000 := ⟨by decide, by decide, by decide, by decide⟩
  constructor
  · obtain ⟨s, hs, hinv⟩ := Host.run_inv (fun _ => false) (by decide : ∀ c ∈ mixedCalls, c.Legal)
    obtain ⟨st, old, s', hr, -, -, -, hdone⟩ :=
      vmmProtectUser_hole_iff.1 (fun _ => false) s 0x10000 0x3000 pageReadOnly hinv hrange (by decide)
    obtain ⟨s1, hs1, r, hr1, hst, hold⟩ : ∃ s1,
        Run.run (Host.step fun _ => false) Host.init mixedCalls = some s1 ∧
          ∃ r, s1.vmmProtectUser (fun _ => false) 0x10000 0x3000 pageReadOnly = .ok r ∧
            r.1 = .success ∧ r.2.1 = some pageReadWrite := by decide +kernel
    cases hs.symm.trans hs1
    cases hr.symm.trans hr1
    cases hst
    cases hold
    exact ⟨s, s', hs, hr, (hdone rfl).1⟩
  · intro m
    obtain ⟨st, old, s', hr, -, hiff, hsame, -⟩ :=
      vmmProtectUser_hole_iff.2 Unit m ⟨Aspace.init Unit, ()⟩ 0x10000 0x3000 pageReadOnly
        (Aspace.init_inv Unit) (fun _ hv => by cases hv) hrange (by decide)
    obtain rfl := hiff.2 ⟨0x10000, by decide, by decide, fun _ hv => by cases hv⟩
    exact ⟨old, s', hr, hsame rfl⟩

/-! ## Ranges of bytes -/

theorem protects_iff (hinv : HostInv h) (hinv' : HostInv h')
    (htop : base + size ≤ userCanonicalTop + 1) (hpos : 0 < size)
    (hr : Retargets h.user (pageAlignDown base) (pageAlignDown base + pageAlignUp size) prot h'.user) :
    Protects h'.as.slots base (base + size) prot ↔
      Protects h.as.slots (pageAlignDown base + pageAlignUp size) (base + size) prot := by
  have huser := userCanonicalTop_eq
  have hdown := pageAlignDown_of_lt (show base < 2 ^ 64 by omega)
  have hup := pageAlignUp_of_le (show size ≤ 2 ^ 64 - 4096 by omega)
  -- what the call does to the page of a byte
  have hpage : ∀ a, base ≤ a → protAt h'.as.slots (a / 4096) =
      if a < pageAlignDown base + pageAlignUp size then some prot
      else protAt h.as.slots (a / 4096) := by
    intro a ha
    rw [retargets_prot hr]
    refine if_congr ?_ rfl rfl
    unfold InRange
    omega
  have hbyte : ∀ {s : Host}, HostInv s → ∀ a, (∃ v ∈ s.as.slots, v.Has a ∧ v.prot = prot) ↔
      protAt s.as.slots (a / 4096) = some prot :=
    fun hs a => (protAt_eq_some hs.vads.ok hs.vads.apart).symm
  constructor
  · intro hall a ha hb
    have hba : base ≤ a := by omega
    have hp := (hbyte hinv' a).1 (hall a hba hb)
    rw [hpage a hba, if_neg (by omega)] at hp
    exact (hbyte hinv a).2 hp
  · intro hall a ha hb
    apply (hbyte hinv' a).2
    rw [hpage a ha]
    split
    · rfl
    · next hge => exact (hbyte hinv a).1 (hall a (not_lt.1 hge) hb)

theorem Host.vmmProtectUser_protects {s s' : Host} (h : HostInv s) (hpos : 0 < size)
    (htop : base + size ≤ userCanonicalTop + 1)
    (hr : s.vmmProtectUser oom base size prot = .ok (.success, old, s')) :
    Protects s'.as.slots base (base + size) prot ↔
      Protects s.as.slots (pageAlignDown base + pageAlignUp size) (base + size) prot := by
  obtain ⟨st, old1, s1, hr1, hinv, hspec⟩ := vmmProtectUser_spec oom h base size prot
  rw [hr] at hr1
  cases ok.inj hr1
  rw [if_pos rfl] at hspec
  exact protects_iff h hinv htop hpos (Host.retargets hspec.1 hspec.2)

/-- A call of the hardware build that succeeds is one of a host. -/
theorem HwState.vmmProtectUser_host (hv : VadInv s.as) (hne : NoneEmpty s.as.slots)
    (hr : HwState.vmmProtectUser m s base size prot = .ok (.success, old, s')) :
    ∃ h h', SameVads (fun _ => false) h s.as ∧ SameVads (fun _ => false) h' s'.as ∧
      h.vmmProtectUser (fun _ => false) base size prot = .ok (.success, old, h') := by
  obtain ⟨h, hb⟩ := exists_same hv hne
  rcases protectAt_same (m := m) prot 2 hb base size with
    ⟨-, hd⟩ | ⟨st1, old1, h', s1, hr1, hr2, hb'⟩
  · rw [HwState.vmmProtectUser, hd] at hr
    cases hr
  · rw [HwState.vmmProtectUser, hr2] at hr
    cases ok.inj hr
    exact ⟨h, h', hb, hb', hr1⟩

theorem HwState.vmmProtectUser_protAt (hv : VadInv s.as) (hne : NoneEmpty s.as.slots)
    (hr : HwState.vmmProtectUser m s base size prot = .ok (.success, old, s')) (q : Nat) :
    protAt s'.as.slots q =
      if InRange (pageAlignDown base) (pageAlignDown base + pageAlignUp size) q then some prot
      else protAt s.as.slots q := by
  obtain ⟨h, h', hb, hb', hr'⟩ := HwState.vmmProtectUser_host hv hne hr
  obtain ⟨st, old1, h1, hr1, -, hspec⟩ := vmmProtectUser_spec (fun _ => false) hb.host base size prot
  rw [hr'] at hr1
  cases ok.inj hr1
  rw [if_pos rfl] at hspec
  rw [← hb.slots, ← hb'.slots, protAt_erase, protAt_erase]
  exact retargets_prot (Host.retargets hspec.1 hspec.2)

/-- After a successful `vmm_protect_user` every byte of the range has the protection, but for those
behind the rounded range: these have it if they had it before. -/
theorem vmmProtectUser_protects_iff (base size : Nat) (prot : Prot) (hpos : 1 ≤ size)
    (htop : base + size ≤ userCanonicalTop + 1) (_ : protLegal prot = true) :
    (∀ (oom : Nat → Bool) (s s' : Host) (old : Option Prot), HostInv s →
      s.vmmProtectUser oom base size prot = .ok (.success, old, s') →
      (Protects s'.as.slots base (base + size) prot ↔
        Protects s.as.slots (pageAlignDown base + pageAlignUp size) (base + size) prot)) ∧
    ∀ (σ : Type) (m : Mmu σ) (s s' : HwState σ) (old : Option Prot), VadInv s.as →
      NoneEmpty s.as.slots → HwState.vmmProtectUser m s base size prot = .ok (.success, old, s') →
      (Protects s'.as.slots base (base + size) prot ↔
        Protects s.as.slots (pageAlignDown base + pageAlignUp size) (base + size) prot) := by
  constructor
  · intro oom s s' old h hr
    exact Host.vmmProtectUser_protects h hpos htop hr
  · intro σ m s s' old hv hne hr
    obtain ⟨h, h', hb, hb', hr'⟩ := HwState.vmmProtectUser_host hv hne hr
    rw [← hb.slots, ← hb'.slots, protects_erase, protects_erase]
    exact Host.vmmProtectUser_protects hb.host hpos htop hr'

/-- Two pages of which the last byte of the first and the first of the second are protected. -/
def borderCalls : List MemCall := [.range (.alloc 0x10000 0x2000 pageReadWrite 0)]

theorem vmmProtectUser_misses_page :
    ∃ s s', Run.run (Host.step fun _ => false) Host.init borderCalls = some s ∧
      s.vmmProtectUser (fun _ => false) 0x10FFF 2 pageReadOnly =
        .ok (.success, some pageReadWrite, s') ∧
      ¬ Protects s'.as.slots 0x10FFF 0x11001 pageReadOnly := by
  refine ⟨_, _, rfl, rfl, fun hall => ?_⟩
  obtain ⟨v, hv, hp, he⟩ := hall 0x11000 (by decide) (by decide)
  revert v
  decide

/-- Two writable pages. -/
def twoPages : Aspace Unit := (Aspace.init Unit).addVad 0x10000 0x10000 0x2000 pageReadWrite 0 ()

theorem twoPages_inv : VadInv twoPages ∧ NoneEmpty twoPages.slots := by
  have ht : allocTarget (Aspace.init Unit) 0x10000 0x2000 = .ok 0x10000 := rfl
  refine ⟨(Aspace.init_inv Unit).addVad ht (by decide) (by decide) (by decide) _ _ _, ?_⟩
  intro v hv
  obtain rfl := List.mem_singleton.1 hv
  decide

theorem vmmProtectUser_protects_iff_pages :
    (∃ s s', Run.run (Host.step fun _ => false) Host.init borderCalls = some s ∧
      s.vmmProtectUser (fun _ => false) 0x10000 0x2000 pageReadOnly =
        .ok (.success, some pageReadWrite, s') ∧
      Protects s'.as.slots 0x10000 0x12000 pageReadOnly) ∧
    ∀ m : Mmu Unit, ∃ s', HwState.vmmProtectUser m ⟨twoPages, ()⟩ 0x10000 0x2000 pageReadOnly =
        .ok (.success, some pageReadWrite, s') ∧
      Protects s'.as.slots 0x10000 0x12000 pageReadOnly := by
  constructor
  · obtain ⟨s, hs, hinv⟩ := Host.run_inv (fun _ => false) (by decide : ∀ c ∈ borderCalls, c.Legal)
    cases Option.some.inj hs
    refine ⟨_, _, rfl, rfl, ?_⟩
    apply ((vmmProtectUser_protects_iff 0x10000 0x2000 pageReadOnly (by decide) (by decide)
      (by decide)).1 (fun _ => false) _ _ _ hinv rfl).2
    intro a ha hb
    exact absurd ha (not_le.2 hb)
  · intro m
    refine ⟨_, rfl, ?_⟩
    apply ((vmmProtectUser_protects_iff 0x10000 0x2000 pageReadOnly (by decide) (by decide)
      (by decide)).2 Unit m ⟨twoPages, ()⟩ _ _ twoPages_inv.1 twoPages_inv.2 rfl).2
    intro a ha hb
    exact absurd ha (not_le.2 hb)

/-! ## Freeing bytes -/

/-- Whether the pages of a range of bytes are those of the rounded range, `[base', stop)`: the page at
its end tells. -/
theorem removes_iff {β : Type} {M M' : Nat → Option β} (hb : base < 2 ^ 64)
    (hlt : pageAlignDown base < stop) (hstop : stop % 4096 = 0)
    (hcov : ∀ q, InRange (pageAlignDown base) stop q → (M q).isSome)
    (hM : ∀ q, M' q = if InRange (pageAlignDown base) stop q then none else M q)
    (hup : stop < pageAlignDown base + size + 4096) :
    Removes M base size M' ↔ base + size ≤ stop := by
  have hdown := pageAlignDown_of_lt hb
  constructor
  · intro hr
    by_contra hlt'
    have htouched : Touched base size (stop / 4096) := by
      unfold Touched pageSize
      omega
    have hq := hr (stop / 4096)
    rw [if_pos htouched, hM, if_neg (by unfold InRange; omega)] at hq
    rw [hq.2] at hq
    cases hq.1
  · intro hle q
    have hiff : Touched base size q ↔ InRange (pageAlignDown base) stop q := by
      unfold Touched InRange pageSize
      omega
    rw [hM]
    by_cases hq : Touched base size q
    · rw [if_pos hq, if_pos (hiff.1 hq)]
      exact ⟨hcov q (hiff.1 hq), rfl⟩
    · rw [if_neg hq, if_neg fun h => hq (hiff.2 h)]

theorem Freed.stop_spec {α : Type} {as : Aspace α} {v : Slot α}
    (hf : Freed as (pageAlignDown base) (freeSize size) v i stop nl nm nr) (h : VadInv as)
    (hne : NoneEmpty as.slots) (hb : base < 2 ^ 64) (hz : size ≠ 0) (hs : size < 2 ^ 64) :
    pageAlignDown base < stop ∧ stop % 4096 = 0 ∧ stop < pageAlignDown base + size + 4096 ∧
      (base + size ≤ stop ↔ Rounds base size) := by
  have hdown := pageAlignDown_of_lt hb
  have hup := pageAlignUp_eq size
  have hfree : freeSize size = pageAlignUp size := if_pos hz
  have hpart := (h.freeParts (pageAlignDown_mod base) (freeSize_mod size) (freeSize_lt size)
    hf.inside hf.target).2.1
  have huser := userCanonicalTop_eq
  obtain ⟨hi, -, hcase⟩ := freeTarget_ok hf.target
  have hv := List.mem_of_getElem? hi
  have htop := (h.ok v hv).top
  have hlt := hne v hv
  unfold Rounds
  refine ⟨?_, hpart.stop_aligned, ?_⟩
  · by_cases h0 : freeSize size = 0
    · rw [if_pos h0] at hcase
      omega
    · rw [if_neg h0] at hcase
      omega
  · by_cases h0 : freeSize size = 0
    · rw [if_pos h0] at hcase
      omega
    · rw [if_neg h0, (inside_user (freeSize_lt size) hf.inside).2.1] at hcase
      omega

theorem Freed.protAt_carve
    (hf : Freed s.as (pageAlignDown base) (freeSize size) v i stop nl nm nr) (h : VadInv s.as)
    (q : Nat) :
    protAt (carve s.as.slots i v (pageAlignDown base) stop nl nr () ()) q =
      if InRange (pageAlignDown base) stop q then none else protAt s.as.slots q := by
  obtain ⟨hi, hpart, hl, -, hr⟩ := h.freeParts (pageAlignDown_mod base) (freeSize_mod size)
    (freeSize_lt size) hf.inside hf.target
  have hinv := hf.inv h (pageAlignDown_mod base) (freeSize_mod size) (freeSize_lt size) () ()
  exact dataAt_carve (f := fun v _ => v.prot) h.apart hi (h.ok v (List.mem_of_getElem? hi)) hpart
    (hf.left.trans hl) (hf.right.trans hr) hinv.apart (by unfold pageSize; omega)
    ⟨fun _ _ => rfl, fun _ _ => rfl⟩

/-- `vmm_free_user` of a size other than 0 fails and changes nothing, or removes the pages that have a
byte of the range and no others, exactly if the rounded range ends behind its last byte or the call
finds no range to free. -/
theorem vmmFreeUser_removes_iff (base size : Nat) (hb : base < 2 ^ 64) (hz : size ≠ 0)
    (hs : size < 2 ^ 64) :
    (∀ (oom : Nat → Bool) (s : Host), HostInv s →
      ∃ st s', s.vmmFreeUser oom base size = .ok (st, s') ∧
        ((st ≠ .success ∧ s'.as = s.as ∧ s'.user = s.user) ∨
            (st = .success ∧ Removes s.user base size s'.user) ↔ Rounds base size ∨
            ¬ ∃ v i stop nl nm nr, FreeFits oom s base size v i stop nl nm nr)) ∧
    ∀ (σ : Type) (m : Mmu σ) (s : HwState σ), VadInv s.as → NoneEmpty s.as.slots →
      ∃ st s', HwState.vmmFreeUser m s base size = (st, s') ∧ ((st ≠ .success ∧ s' = s) ∨
            (st = .success ∧ Removes (protAt s.as.slots) base size (protAt s'.as.slots)) ↔
          Rounds base size ∨ ¬ ∃ v i stop nl nm nr,
            Freed s.as (pageAlignDown base) (freeSize size) v i stop nl nm nr) := by
  constructor
  · intro oom s h
    obtain ⟨st, s', hr, -, hcase⟩ := vmmFreeUser_reply oom h base size
    refine ⟨st, s', hr, ?_⟩
    rcases hcase with ⟨hst, has, huser, hno⟩ | ⟨hst, v, i, stop, nl, nm, nr, hff, hcov, huser⟩
    · exact iff_of_true (.inl ⟨hst, has, huser⟩) (.inr hno)
    · obtain ⟨hlt, hal, hup, hround⟩ := hff.freed.stop_spec h.vads h.noneEmpty hb hz hs
      have hiff := removes_iff hb hlt hal hcov (fun q => congrFun huser q) hup
      simp only [hst, ne_eq, not_true_eq_false, false_and, false_or, true_and, hiff, hround]
      exact (or_iff_left fun hno => hno ⟨v, i, stop, nl, nm, nr, hff⟩).symm
  · intro σ m s h hne
    by_cases hex : ∃ v i stop nl nm nr,
        Freed s.as (pageAlignDown base) (freeSize size) v i stop nl nm nr
    · obtain ⟨v, i, stop, nl, nm, nr, hf⟩ := hex
      obtain ⟨hlt, hal, hup, hround⟩ := hf.stop_spec h hne hb hz hs
      refine ⟨_, _, HwState.vmmFreeUser_of_freed hf, ?_⟩
      have hcov : ∀ q, InRange (pageAlignDown base) stop q → (protAt s.as.slots q).isSome := by
        intro q hq
        obtain ⟨hi, hpart, -⟩ := h.freeParts (pageAlignDown_mod base) (freeSize_mod size)
          (freeSize_lt size) hf.inside hf.target
        obtain ⟨j, hl⟩ := vadLookup_of_mem h.apart (List.mem_of_getElem? hi)
          ⟨hpart.start_le.trans hq.1, hq.2.trans_le hpart.le_stop⟩
        rw [protAt, show q * pageSize = q * 4096 from rfl, hl]
        rfl
      have hiff := removes_iff hb hlt hal hcov (hf.protAt_carve h) hup
      simp only [ne_eq, not_true_eq_false, false_and, false_or, true_and, hiff, hround]
      exact (or_iff_left fun hno => hno ⟨v, i, stop, nl, nm, nr, hf⟩).symm
    · rcases HwState.vmmFreeUser_cases m s base size with ⟨st, hst, hr⟩ | ⟨v, i, stop, nl, nm, nr, hf, -⟩
      · exact ⟨st, s, hr, iff_of_true (.inl ⟨hst, rfl⟩) (.inr hex)⟩
      · exact absurd ⟨v, i, stop, nl, nm, nr, hf⟩ hex

theorem vmmFreeUser_removes_iff_page :
    (∃ s s', Run.run (Host.step fun _ => false) Host.init borderCalls = some s ∧
      s.vmmFreeUser (fun _ => false) 0x10FFF 1 = .ok (.success, s') ∧
      Removes s.user 0x10FFF 1 s'.user) ∧
    ∀ m : Mmu Unit, ∃ s', HwState.vmmFreeUser m ⟨twoPages, ()⟩ 0x10FFF 1 = (.success, s') ∧
      Removes (protAt twoPages.slots) 0x10FFF 1 (protAt s'.as.slots) := by
  constructor
  · obtain ⟨s, hs, hinv⟩ := Host.run_inv (fun _ => false) (by decide : ∀ c ∈ borderCalls, c.Legal)
    cases Option.some.inj hs
    obtain ⟨st, s', hr, hiff⟩ := (vmmFreeUser_removes_iff 0x10FFF 1 (by decide) (by decide)
      (by decide)).1 (fun _ => false) _ hinv
    cases ok.inj hr
    rcases hiff.2 (.inl (by decide)) with ⟨hne, -⟩ | ⟨-, hrem⟩
    · exact absurd rfl hne
    · exact ⟨_, _, rfl, rfl, hrem⟩
  · intro m
    obtain ⟨st, s', hr, hiff⟩ := (vmmFreeUser_removes_iff 0x10FFF 1 (by decide) (by decide)
      (by decide)).2 Unit m ⟨twoPages, ()⟩ twoPages_inv.1 twoPages_inv.2
    have hst := (congrArg Prod.fst hr).symm
    rcases hiff.2 (.inl (by decide)) with ⟨hne, -⟩ | ⟨-, hrem⟩
    · exact absurd hst hne
    · exact ⟨s', by rw [hr, show st = .success from hst], hrem⟩

/-- Of a range across the border of two pages the second page is kept; a size that rounds up to 0
frees a whole VAD. -/
theorem vmmFreeUser_other_pages :
    ∃ s, Run.run (Host.step fun _ => false) Host.init borderCalls = some s ∧
      (∃ s', s.vmmFreeUser (fun _ => false) 0x10FFF 2 = .ok (.success, s') ∧
        ¬ Removes s.user 0x10FFF 2 s'.user) ∧
      ∃ s', s.vmmFreeUser (fun _ => false) 0x10000 (2 ^ 64 - 1) = .ok (.success, s') ∧
        s'.as.slots.length = 0 ∧ ¬ Removes s.user 0x10000 (2 ^ 64 - 1) s'.user := by
  refine ⟨_, rfl, ⟨_, rfl, fun hr => ?_⟩, _, rfl, rfl, fun hr => ?_⟩
  · have hq := hr 0x11
    rw [if_pos (by decide)] at hq
    exact absurd hq.2 (Option.isSome_iff_ne_none.1 (by decide))
  · have hq := hr 0x12
    rw [if_pos (by decide)] at hq
    exact absurd hq.1 (by decide)

end

end Aegis
