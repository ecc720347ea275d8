import Aegis.Mm.Proof.HostRange

/-!
# `vmm_protect_user` in the host build

The call returns; it changes the protection of its pages and of no others, and when it fails it may
have done so for the first of its clips.
-/

namespace Aegis

section
variable {oom : Nat → Bool} {s : Host} {v : Slot Shadow} {i base size : Nat} {prot : Prot}

variable (oom) in
/-- What the contained path does: it runs out of VADs or of memory, or it joins neighbours after the
VAD has been split. -/
theorem Host.protectContained_cases (h : HostInv s)
    (hc : Contained s.as.slots base size v i) (prot : Prot) :
    (s.protectContained oom i v base size (u64 (base + size)) prot =
        .ok (.insufficientResources, none, s) ∧
      ∀ nl nr, ¬ Protected s.as base size v i nl nr) ∨
    ∃ nl nr, Protected s.as base size v i nl nr ∧
      ((∃ k, s.next ≤ k ∧ (∃ n, s.next ≤ n ∧ oom n = true) ∧
          s.protectContained oom i v base size (u64 (base + size)) prot =
            .ok (.noMemory, none, { s with next := k })) ∨
        ∃ k left mid right, s.next ≤ k ∧
          ProtectStep s base size prot .success (Host.setSlots { s with next := k }
            (protectSplit s.as.slots i v base (base + size) prot nl nr left mid right)) ∧
          s.protectContained oom i v base size (u64 (base + size)) prot = (do
            let s' ← Host.vadCoalesce oom
              (protectSplit s.as.slots i v base (base + size) prot nl nr left mid right).length
              (Host.setSlots { s with next := k }
                (protectSplit s.as.slots i v base (base + size) prot nl nr left mid right))
            return (.success, some v.prot, s'))) := by
  unfold Host.protectContained
  simp only
  generalize hl : pagesBetween v.start base = nLeft
  generalize hr : pagesBetween (u64 (base + size)) v.stop = nRight
  by_cases hroom : s.as.slots.length + ((if nLeft ≠ 0 then 1 else 0) +
      (if nRight ≠ 0 then 1 else 0)) > maxVads
  · rw [if_pos hroom]
    refine .inl ⟨rfl, fun nl nr hp => ?_⟩
    have hle := hp.room
    rw [hp.left, hp.right, hl, hr] at hle
    omega
  rw [if_neg hroom]
  have hp : Protected s.as base size v i nLeft nRight :=
    ⟨hc, hl.symm, hr.symm, not_lt.1 hroom⟩
  refine .inr ⟨nLeft, nRight, hp, ?_⟩
  obtain ⟨hi, hpart, hu, hnl, hnr⟩ := hp.part h.vads
  have hv := List.mem_of_getElem? hi
  have hok := h.vads.ok v hv
  have hcut : Cut v nLeft (size / 4096) nRight := by
    have := hpart.cut hok (h.shaped v hv)
    rw [hnl, hnr]
    rwa [Nat.add_sub_cancel_left] at this
  have hsmall : u32 (size / pageSize) = size / 4096 := by
    have := (h.vads.protectParts hc).2.2.2.2.1
    rwa [Nat.add_sub_cancel_left] at this
  by_cases hz : (if nLeft ≠ 0 then 1 else 0) + (if nRight ≠ 0 then 1 else 0) = 0
  · rw [if_pos hz, hp.whole h.vads hz prot v.shadow v.shadow]
    have hnl0 : nLeft = 0 := by
      by_contra hne
      simp [hne] at hz
    have hnr0 : nRight = 0 := by
      by_contra hne
      simp [hne] at hz
    have hpages := hcut.pages
    rw [hnl0, hnr0, Nat.zero_add, Nat.add_zero] at hpages
    have hstep := h.protectSplit hp (le_refl s.next) prot v.shadow
      v.shadow v.shadow (fun hn => absurd hnl0 hn)
      ⟨fun hn => by rw [(h.shaped v hv).npages hn, hpages], by
        rw [hnl0, List.drop_zero, ← hpages, ← (h.shaped v hv).length, List.take_length,
          (h.shaped v hv).length]
        rfl⟩
      (fun hn => absurd hnr0 hn)
    exact .inr ⟨s.next, v.shadow, v.shadow, v.shadow, le_rfl, hstep, rfl⟩
  · rw [if_neg hz, hsmall]
    obtain ⟨r, k, harr, hk, hno, hspec⟩ := protectArrays_spec oom s hcut
    rw [harr, Outcome.ok_bind]
    cases r with
    | none => exact .inl ⟨k, hk, hno rfl, rfl⟩
    | some x =>
      obtain ⟨left, mid, right⟩ := x
      obtain ⟨hleft, hmid, hright⟩ := hspec left mid right rfl
      have hstep := h.protectSplit hp hk prot ⟨left, nLeft⟩
        ⟨mid, size / 4096⟩ ⟨right, nRight⟩ (fun _ => ⟨rfl, hleft⟩)
        ⟨fun _ => rfl, hmid⟩ (fun _ => ⟨rfl, hright⟩)
      simp only [hu]
      exact .inr ⟨k, _, _, _, hk, hstep, rfl⟩

variable (oom) in
theorem protectContained_spec (h : HostInv s)
    (hc : Contained s.as.slots base size v i) (prot : Prot) :
    ∃ st old s', s.protectContained oom i v base size (u64 (base + size)) prot = .ok (st, old, s') ∧
      ProtectStep s base size prot st s' ∧ st ≠ .conflictingAddresses ∧
      (st = .success → old = some v.prot) := by
  rcases Host.protectContained_cases oom h hc prot with
    ⟨he, -⟩ | ⟨nl, nr, -, ⟨k, hk, -, he⟩ | ⟨k, left, mid, right, hk, hstep, he⟩⟩
  · exact ⟨.insufficientResources, none, s, he, ⟨h, (fun _ _ _ _ _ _ hw => hw), rfl⟩, nofun, nofun⟩
  · exact ⟨.noMemory, none, { s with next := k }, he,
      ⟨h.next hk, (fun _ _ _ _ _ _ hw => hw), rfl⟩, nofun, nofun⟩
  · obtain ⟨s', hs', hk'⟩ := vadCoalesce_spec oom
      (protectSplit s.as.slots i v base (base + size) prot nl nr left mid right).length hstep.inv
    rw [he, hs']
    exact ⟨.success, some v.prot, s', rfl, hk'.protectStep hstep, nofun, fun _ => rfl⟩

variable (oom) in
theorem Host.protectAt_cases (prot : Prot) (s : Host) (base size : Nat) :
    ProtectWays (fun s => s.as.slots)
      (fun s i v base size stop => s.protectContained oom i v base size stop prot)
      (Host.protectAt oom prot) prot s base size :=
  protectRange_ways ..

variable (oom) in
theorem Host.protectAt_clip (h : HostInv s) {lo hi : Nat} (hp : protLegal prot = true)
    (hlo : lo % 4096 = 0) (hhi : hi % 4096 = 0) (hlt : lo < hi) (hw : InOneVad s.as.slots lo hi) :
    ∃ st old s', (∀ k, Host.protectAt oom prot (k + 1) s lo (hi - lo) = .ok (st, old, s')) ∧
      ProtectStep s lo (hi - lo) prot st s' ∧ st ≠ .conflictingAddresses := by
  obtain ⟨v, i, hc, hr⟩ := protectRange_clip (fun s : Host => s.as.slots)
    (fun s i v base size stop => s.protectContained oom i v base size stop prot) h.vads.ok hp hlo hhi
    hlt hw
  obtain ⟨st, old, s', he, hstep, hne, -⟩ := protectContained_spec oom h hc prot
  exact ⟨st, old, s', fun k => (hr k).trans he, hstep, hne⟩

/-- The pages of some clips have another protection. -/
def UserMap.protectClips (M : UserMap) (clips : List (Nat × Nat)) (prot : Prot) : UserMap :=
  fun q => if ∃ c ∈ clips, InRange c.1 c.2 q then (M q).map fun x => (prot, x.2) else M q

theorem UserMap.protectClips_nil (M : UserMap) (prot : Prot) : M.protectClips [] prot = M := by
  funext q
  simp [UserMap.protectClips]

theorem UserMap.protectClips_cons (M : UserMap) (lo hi : Nat) (clips : List (Nat × Nat))
    (prot : Prot) :
    (M.protect lo hi prot).protectClips clips prot = M.protectClips ((lo, hi) :: clips) prot := by
  funext q
  simp only [UserMap.protectClips, UserMap.protect, UserMap.onRange, List.exists_mem_cons_iff]
  by_cases h1 : InRange lo hi q
  · by_cases h2 : ∃ c ∈ clips, InRange c.1 c.2 q
    · simp only [h1, h2, true_or, if_true, Option.map_map]
      rfl
    · simp only [h1, h2, true_or, if_true, if_false]
  · by_cases h2 : ∃ c ∈ clips, InRange c.1 c.2 q <;> simp only [h1, h2, false_or, if_true, if_false]

variable (oom) in
theorem Host.protectClips_spec (hp : protLegal prot = true) {stop cur : Nat}
    {clips : List (Nat × Nat)} (h : HostInv s) (hc : ∀ x ∈ clips, Clip s.as.slots cur stop x)
    (ho : Ordered clips) :
    ∃ st s' done, (∀ k, protectClips (Host.protectAt oom prot (k + 1)) clips s = .ok (st, s')) ∧
      st ≠ .conflictingAddresses ∧ HostInv s' ∧ done ⊆ clips ∧ (st = .success → done = clips) ∧
      s'.user = s.user.protectClips done prot := by
  induction clips generalizing s cur with
  | nil =>
    exact ⟨.success, s, [], fun _ => rfl, nofun, h, List.nil_subset _, fun _ => rfl,
      (UserMap.protectClips_nil _ _).symm⟩
  | cons x clips ih =>
    obtain ⟨lo, hi⟩ := x
    obtain ⟨hx, hclips⟩ := List.forall_mem_cons.1 hc
    obtain ⟨hord, ho⟩ := List.pairwise_cons.1 ho
    have hlt : lo < hi := hx.lt
    obtain ⟨st, old, s1, hr, hstep, hne⟩ :=
      Host.protectAt_clip oom h hp hx.aligned.1 hx.aligned.2 hlt hx.within
    have huser := hstep.user
    rw [show lo + (hi - lo) = hi by omega] at huser
    unfold protectClips
    simp only [hr, Outcome.ok_bind]
    cases hst : ntSuccess st
    · have hfail := (ntSuccess_eq_false st).1 hst
      rw [if_neg hfail] at huser
      exact ⟨st, s1, [], fun _ => if_pos rfl, hne, hstep.inv, List.nil_subset _,
        (fun he => absurd he hfail), by rw [huser, UserMap.protectClips_nil]⟩
    · rw [if_pos ((ntSuccess_iff st).1 hst)] at huser
      have hrest := Clip.rest hlt hclips hord hstep.within
      obtain ⟨st', s2, done, hr2, hne2, hinv, hsub, hall, huser2⟩ := ih hstep.inv hrest ho
      refine ⟨st', s2, (lo, hi) :: done, fun k => (if_neg (by decide)).trans (hr2 k), hne2, hinv,
        List.cons_subset_cons _ hsub, fun he => ?_, ?_⟩
      · rw [hall he]
      · rw [huser2, huser, UserMap.protectClips_cons]

theorem covers_of_clips {stop : Nat} (h : HostInv s)
    (hc : ∀ p, base ≤ p → p < stop → ∃ v ∈ s.as.slots, v.Has p) : s.user.Covers base stop := by
  intro q hq
  obtain ⟨v, hv, hhas⟩ := hc _ hq.1 hq.2
  rw [Host.user, dataAt_of_mem h.vads.apart hv hhas]
  rfl

variable (oom) in
theorem vmmProtectUser_spec (h : HostInv s) (base size : Nat) (prot : Prot) :
    ∃ st old s', s.vmmProtectUser oom base size prot = .ok (st, old, s') ∧ HostInv s' ∧
      if st = .success then
        s.user.Covers (pageAlignDown base) (pageAlignDown base + pageAlignUp size) ∧
        s'.user = s.user.protect (pageAlignDown base) (pageAlignDown base + pageAlignUp size) prot
      else ∀ q, s'.user q = s.user q ∨
        InRange (pageAlignDown base) (pageAlignDown base + pageAlignUp size) q ∧
          s'.user q = (s.user q).map fun x => (prot, x.2) := by
  unfold Host.vmmProtectUser
  rcases Host.protectAt_cases oom prot s base size with
    ⟨st, hst, hr⟩ | ⟨hp, -, ⟨v, i, hc, hr⟩ | ⟨v, n, clips, -, -, hchain, hr⟩⟩
  · refine ⟨st, none, s, hr 1, h, ?_⟩
    rw [if_neg hst]
    exact fun q => .inl rfl
  · obtain ⟨st, old, s', he, hstep, -⟩ := protectContained_spec oom h hc prot
    refine ⟨st, old, s', (hr 1).trans he, hstep.inv, ?_⟩
    have huser := hstep.user
    obtain ⟨hi, hpart, -⟩ := h.vads.protectParts hc
    split
    · next hst =>
      rw [if_pos hst] at huser
      exact ⟨covers_of_mem h (List.mem_of_getElem? hi) hpart.start_le hpart.le_stop, huser⟩
    · next hst =>
      rw [if_neg hst] at huser
      exact fun q => .inl (by rw [huser])
  · obtain ⟨hclips, ho⟩ := hchain.rounded h.vads.ok
    obtain ⟨st, s', done, hr', -, hinv, hsub, hall, huser⟩ :=
      Host.protectClips_spec oom hp h hclips ho
    refine ⟨st, some v.prot, s', by rw [hr 1, hr' 0]; rfl, hinv, ?_⟩
    have hrange : ∀ q, (∃ c ∈ clips, InRange c.1 c.2 q) ↔
        InRange (pageAlignDown base) (pageAlignDown base + pageAlignUp size) q :=
      fun q => hchain.covers (q * 4096)
    split
    · next hst =>
      refine ⟨covers_of_clips h fun p hp1 hp2 => ?_, ?_⟩
      · obtain ⟨c, hc, hcp⟩ := (hchain.covers p).2 ⟨hp1, hp2⟩
        obtain ⟨w, hw, hin'⟩ := (hclips c hc).within
        exact ⟨w, hw, hin'.1.trans hcp.1, hcp.2.trans_le hin'.2⟩
      · rw [huser, hall hst]
        funext q
        simp only [UserMap.protectClips, UserMap.protect, UserMap.onRange, hrange]
    · intro q
      rw [huser, UserMap.protectClips]
      by_cases hq : ∃ c ∈ done, InRange c.1 c.2 q
      · obtain ⟨c, hc, hcq⟩ := hq
        exact .inr ⟨(hrange q).1 ⟨c, hsub hc, hcq⟩, if_pos ⟨c, hc, hcq⟩⟩
      · exact .inl (if_neg hq)

end

end Aegis
