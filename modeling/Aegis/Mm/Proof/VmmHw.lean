import Aegis.Lib.Run
import Aegis.Mm.Proof.VadRange
import Aegis.Mm.VmmHw

/-!
# The VADs of the hardware build

Every call of `vmm_alloc_user`, `vmm_free_user` and `vmm_protect_user` keeps `VadInv`, whatever the
page tables do; and `vmm_protect_user` returns.
-/

namespace Aegis

section
variable {σ : Type} {m : Mmu σ} {s : HwState σ}

/-- **The rule for `vad_coalesce`**: what holds of the VADs and is kept when neighbours are joined. -/
theorem hwCoalesce_keeps {P : List (Slot Unit) → Prop}
    (hjoin : ∀ l l' v u m, P l → Joined v u m l l' → P l') (k : Nat) {l : List (Slot Unit)}
    (h : P l) : P (hwCoalesce k l) := by
  induction k generalizing l with
  | zero => exact h
  | succ k ih =>
    unfold hwCoalesce
    split
    · exact h
    · next v i u j hm => exact ih (hjoin _ _ _ _ _ h (joinVads_joined hm ()))

namespace HwState

variable {base i k nl nr size : Nat} {prot : Prot} {v : Slot Unit} {P : HwState σ → Prop}

theorem vmmFreeUser_cases (m : Mmu σ) (s : HwState σ) (base size : Nat) :
    (∃ st, st ≠ .success ∧ vmmFreeUser m s base size = (st, s)) ∨ ∃ v i stop nLeft nMid nRight,
      Freed s.as (pageAlignDown base) (freeSize size) v i stop nLeft nMid nRight ∧
      vmmFreeUser m s base size = (.success,
        { as := { s.as with
            slots := carve s.as.slots i v (pageAlignDown base) stop nLeft nRight () ()
            committedPages := uncommit s.as.committedPages nMid }
          mmu := m.clearRange s.mmu (pageAlignDown base) nMid }) := by
  unfold vmmFreeUser
  simp only
  cases hp : freePlan s.as (pageAlignDown base) (freeSize size) with
  | error st => exact .inl ⟨st, freePlan_error hp, rfl⟩
  | ok p => exact .inr ⟨_, _, _, _, _, _, freePlan_eq_ok.1 hp, rfl⟩

theorem vmmFreeUser_of_freed {stop nm : Nat}
    (hf : Freed s.as (pageAlignDown base) (freeSize size) v i stop nl nm nr) :
    vmmFreeUser m s base size = (.success,
      { as := { s.as with
          slots := carve s.as.slots i v (pageAlignDown base) stop nl nr () ()
          committedPages := uncommit s.as.committedPages nm }
        mmu := m.clearRange s.mmu (pageAlignDown base) nm }) := by
  unfold vmmFreeUser
  simp only [freePlan_eq_ok.2 hf]

theorem vmmFreeUser_inv (h : VadInv s.as) (base size : Nat) :
    VadInv (vmmFreeUser m s base size).2.as := by
  rcases vmmFreeUser_cases m s base size with ⟨st, -, he⟩ | ⟨v, i, stop, nl, nm, nr, hf, he⟩
  · rw [he]
    exact h
  · rw [he]
    exact hf.inv h (pageAlignDown_mod base) (freeSize_mod size) (freeSize_lt size) () ()

theorem vmmAllocUser_cases (m : Mmu σ) (s : HwState σ) (base size : Nat) (prot : Prot)
    (type : Nat) :
    (∃ st, st ≠ .success ∧ vmmAllocUser m s base size prot type = (st, base, s)) ∨
    ∃ va, size ≠ 0 ∧ pageAlignUp size / pageSize ≤ userCommitMax / pageSize ∧
      allocTarget s.as base (pageAlignUp size) = .ok va ∧
      ((commitLoop m (pageAlignUp size / pageSize) va s.mmu).1 = true ∧
        vmmAllocUser m s base size prot type = (.success, va,
          ⟨s.as.addVad base va (pageAlignUp size) prot type (),
            (commitLoop m (pageAlignUp size / pageSize) va s.mmu).2⟩) ∨
      (commitLoop m (pageAlignUp size / pageSize) va s.mmu).1 = false ∧
        vmmAllocUser m s base size prot type = (.noMemory, base,
          (vmmFreeUser m ⟨s.as.addVad base va (pageAlignUp size) prot type (),
            (commitLoop m (pageAlignUp size / pageSize) va s.mmu).2⟩ va (pageAlignUp size)).2)) := by
  unfold vmmAllocUser
  cases hp : allocPlan s.as base size with
  | error st => exact .inl ⟨st, allocPlan_error hp, rfl⟩
  | ok va =>
    obtain ⟨hz, hl, ht⟩ := allocPlan_eq_ok.1 hp
    refine .inr ⟨va, hz, hl, ht, ?_⟩
    simp only
    cases hd : (commitLoop m (pageAlignUp size / pageSize) va s.mmu).1
    · exact .inr ⟨rfl, by simp⟩
    · exact .inl ⟨rfl, by simp⟩

theorem vmmAllocUser_inv (h : VadInv s.as) (hb : base % 4096 = 0) (size : Nat) (prot : Prot)
    (type : Nat) : VadInv (vmmAllocUser m s base size prot type).2.2.as := by
  rcases vmmAllocUser_cases m s base size prot type with ⟨st, -, he⟩ | ⟨va, -, -, ht, hcase⟩
  · rw [he]
    exact h
  · have hadd : VadInv (s.as.addVad base va (pageAlignUp size) prot type ()) :=
      h.addVad ht hb (pageAlignUp_mod size) (pageAlignUp_lt size) prot type ()
    rcases hcase with ⟨-, he⟩ | ⟨-, he⟩
    · rw [he]
      exact hadd
    · rw [he]
      exact vmmFreeUser_inv hadd va (pageAlignUp size)

theorem vmmFreeUser_noneEmpty (h : VadInv s.as) (hne : NoneEmpty s.as.slots) (base size : Nat) :
    NoneEmpty (vmmFreeUser m s base size).2.as.slots := by
  rcases vmmFreeUser_cases m s base size with ⟨st, -, he⟩ | ⟨v, i, stop, nl, nm, nr, hf, he⟩
  · rw [he]
    exact hne
  · rw [he]
    obtain ⟨hi, -, hl, -, hr⟩ := h.freeParts (pageAlignDown_mod base) (freeSize_mod size)
      (freeSize_lt size) hf.inside hf.target
    rw [hf.left, hl, hf.right, hr]
    exact hne.carve hi _ _ () ()

theorem vmmAllocUser_noneEmpty (h : VadInv s.as) (hne : NoneEmpty s.as.slots)
    (hb : base % 4096 = 0) (hs : size ≤ 2 ^ 64 - 4096) (prot : Prot) (type : Nat) :
    NoneEmpty (vmmAllocUser m s base size prot type).2.2.as.slots := by
  rcases vmmAllocUser_cases m s base size prot type with ⟨st, -, he⟩ | ⟨va, hz, -, ht, hcase⟩
  · rw [he]
    exact hne
  · have hadd : VadInv (s.as.addVad base va (pageAlignUp size) prot type ()) :=
      h.addVad ht hb (pageAlignUp_mod size) (pageAlignUp_lt size) prot type ()
    have hne' := hne.addVad ht hz hs prot type ()
    rcases hcase with ⟨-, he⟩ | ⟨-, he⟩
    · rw [he]
      exact hne'
    · rw [he]
      exact vmmFreeUser_noneEmpty hadd hne' va (pageAlignUp size)

theorem protectContained_eq (hp : Protected s.as base size v i nl nr) (h : VadInv s.as)
    (prot : Prot) :
    protectContained m s i v base size (u64 (base + size)) prot = (.success, some v.prot,
        { as := { s.as with
            slots := hwCoalesce
              (protectSplit s.as.slots i v base (base + size) prot nl nr () () ()).length
              (protectSplit s.as.slots i v base (base + size) prot nl nr () () ()) }
          mmu := m.applyProt s.mmu base size prot }) := by
  obtain ⟨-, -, hu, -, -⟩ := hp.part h
  unfold protectContained
  simp only
  rw [← hp.left, ← hp.right, if_neg (not_lt.2 hp.room)]
  by_cases hz : (if nl ≠ 0 then 1 else 0) + (if nr ≠ 0 then 1 else 0) = 0
  · rw [if_pos hz, hp.whole h hz prot () ()]
  · rw [if_neg hz, hu]

/-- The contained path runs out of VADs, or it joins neighbours after the VAD has been split. -/
theorem protectContained_cases (m : Mmu σ) (h : VadInv s.as)
    (hc : Contained s.as.slots base size v i) (prot : Prot) :
    protectContained m s i v base size (u64 (base + size)) prot =
      (.insufficientResources, none, s) ∨
    ∃ nl nr, Protected s.as base size v i nl nr ∧
      protectContained m s i v base size (u64 (base + size)) prot = (.success, some v.prot,
        { as := { s.as with
            slots := hwCoalesce
              (protectSplit s.as.slots i v base (base + size) prot nl nr () () ()).length
              (protectSplit s.as.slots i v base (base + size) prot nl nr () () ()) }
          mmu := m.applyProt s.mmu base size prot }) := by
  rcases lt_or_ge maxVads (s.as.slots.length + ((if pagesBetween v.start base ≠ 0 then 1 else 0) +
    (if pagesBetween (u64 (base + size)) v.stop ≠ 0 then 1 else 0))) with hroom | hroom
  · exact .inl (if_pos hroom)
  · have hp : Protected s.as base size v i _ _ := ⟨hc, rfl, rfl, hroom⟩
    exact .inr ⟨_, _, hp, protectContained_eq hp h prot⟩

theorem protectContained_inv (h : VadInv s.as) (hc : Contained s.as.slots base size v i)
    (prot : Prot) :
    VadInv (protectContained m s i v base size (u64 (base + size)) prot).2.2.as ∧
    ∀ lo hi, lo % 4096 = 0 → hi % 4096 = 0 → lo < hi → (hi ≤ base ∨ base + size ≤ lo) →
      InOneVad s.as.slots lo hi →
      InOneVad (protectContained m s i v base size (u64 (base + size)) prot).2.2.as.slots lo hi := by
  rcases protectContained_cases m h hc prot with he | ⟨nl, nr, hp, he⟩
  · rw [he]
    exact ⟨h, fun _ _ _ _ _ _ hw => hw⟩
  · rw [he]
    obtain ⟨hi, hpart, -, hnl, hnr⟩ := hp.part h
    have hok := h.ok v (List.mem_of_getElem? hi)
    have hinv := hp.inv h prot () () ()
    refine ⟨hwCoalesce_keeps (P := fun l => VadInv { s.as with slots := l })
      (fun _ _ _ _ _ hp hj => hj.inv hp) _ hinv, fun lo hi' hlo hhi hlt' hoff hw => ?_⟩
    refine (hwCoalesce_keeps (P := fun l => VadInv { s.as with slots := l } ∧ InOneVad l lo hi')
      (fun _ _ _ _ _ hp hj => ⟨hj.inv hp.1, hj.within hp.1.ok hp.2⟩) _ ⟨hinv, ?_⟩).2
    rw [hnl, hnr]
    exact hw.protectSplit hi hok hpart hlo hhi hlt' hoff prot () () ()

theorem protectAt_clip (h : VadInv s.as) {lo hi : Nat} (hp : protLegal prot = true)
    (hlo : lo % 4096 = 0) (hhi : hi % 4096 = 0) (hlt : lo < hi) (hw : InOneVad s.as.slots lo hi) :
    ∃ v i, Contained s.as.slots lo (hi - lo) v i ∧ ∀ k, protectAt m prot (k + 1) s lo (hi - lo) =
        .ok (protectContained m s i v lo (hi - lo) (u64 (lo + (hi - lo))) prot) :=
  protectRange_clip (fun s : HwState σ => s.as.slots) _ h.ok hp hlo hhi hlt hw

/-- What the contained path keeps of the state, in every call of it that `vmm_protect_user` makes. -/
def ContainedKeeps (m : Mmu σ) (prot : Prot) (P : HwState σ → Prop) : Prop :=
  ∀ s base size v i, VadInv s.as → P s → Contained s.as.slots base size v i →
    P (protectContained m s i v base size (u64 (base + size)) prot).2.2

theorem contained_noneEmpty (m : Mmu σ) (prot : Prot) :
    ContainedKeeps m prot fun s => NoneEmpty s.as.slots := by
  intro s base size v i h hne hc
  rcases protectContained_cases m h hc prot with he | ⟨nl, nr, hp, he⟩
  · rw [he]
    exact hne
  · rw [he]
    obtain ⟨hi, -, -, hnl, hnr⟩ := hp.part h
    have hpos := hc.pos
    refine hwCoalesce_keeps (P := NoneEmpty) (fun _ _ _ _ _ hne hj => hj.noneEmpty hne) _ ?_
    rw [hnl, hnr]
    exact hne.protectSplit hi (by omega) prot () () ()

/-- A clip is contained in a VAD, so the depth that is left does not matter to the clips. -/
theorem protectClips_keeps (hp : protLegal prot = true) (hstep : ContainedKeeps m prot P)
    {stop cur : Nat} {clips : List (Nat × Nat)} (h : VadInv s.as) (hs : P s)
    (hc : ∀ x ∈ clips, Clip s.as.slots cur stop x) (ho : Ordered clips) :
    ∃ r, (∀ k, protectClips (protectAt m prot (k + 1)) clips s = .ok r) ∧ VadInv r.2.as ∧ P r.2 := by
  induction clips generalizing s cur with
  | nil => exact ⟨(.success, s), fun _ => rfl, h, hs⟩
  | cons x clips ih =>
    obtain ⟨lo, hi⟩ := x
    obtain ⟨hx, hclips⟩ := List.forall_mem_cons.1 hc
    obtain ⟨hord, ho⟩ := List.pairwise_cons.1 ho
    have hlt : lo < hi := hx.lt
    obtain ⟨v, i, hcr, hr⟩ :=
      protectAt_clip (m := m) h hp hx.aligned.1 hx.aligned.2 hlt hx.within
    obtain ⟨hinv, hkeep⟩ := protectContained_inv (m := m) h hcr prot
    have hP := hstep s lo (hi - lo) v i h hs hcr
    generalize protectContained m s i v lo (hi - lo) (u64 (lo + (hi - lo))) prot = r
      at hinv hkeep hP hr
    obtain ⟨st, old, s1⟩ := r
    simp only at hinv hkeep hP
    unfold protectClips
    simp only [hr, Outcome.ok_bind]
    by_cases hst : ntSuccess st = false
    · exact ⟨(st, s1), fun _ => if_pos hst, hinv, hP⟩
    · have hrest := Clip.rest hlt hclips hord hkeep
      obtain ⟨r, hr, hkept⟩ := ih hinv hP hrest ho
      exact ⟨r, fun k => (if_neg hst).trans (hr k), hkept⟩

theorem protectAt_cases (m : Mmu σ) (prot : Prot) (s : HwState σ) (base size : Nat) :
    ProtectWays (fun s => s.as.slots)
      (fun s i v base size stop => .ok (protectContained m s i v base size stop prot))
      (protectAt m prot) prot s base size :=
  protectRange_ways ..

/-- **The rule for `vmm_protect_user`**: it returns, and keeps what the contained path keeps. -/
theorem vmmProtectUser_keeps (prot : Prot)
    (hstep : protLegal prot = true → ContainedKeeps m prot P) (h : VadInv s.as) (hs : P s)
    (base size : Nat) :
    ∃ r, vmmProtectUser m s base size prot = .ok r ∧ VadInv r.2.2.as ∧ P r.2.2 := by
  unfold vmmProtectUser
  rcases protectAt_cases m prot s base size with
    ⟨st, -, hr⟩ | ⟨hp, -, ⟨v, i, hc, hr⟩ | ⟨v, n, clips, -, -, hchain, hr⟩⟩
  · exact ⟨_, hr 1, h, hs⟩
  · exact ⟨_, hr 1, (protectContained_inv h hc prot).1, hstep hp s _ _ v i h hs hc⟩
  · obtain ⟨hclips, ho⟩ := hchain.rounded h.ok
    obtain ⟨r, hr', hinv, hP⟩ := protectClips_keeps hp (hstep hp) h hs hclips ho
    refine ⟨(r.1, some v.prot, r.2), ?_, hinv, hP⟩
    rw [hr 1, hr' 0]
    rfl

end HwState

end

end Aegis
