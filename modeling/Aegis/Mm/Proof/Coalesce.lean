import Aegis.Mm.Proof.RangeCalls
import Aegis.Mm.Proof.Views

/-!
# `vad_coalesce` is canonical

The VADs that `vad_coalesce` ends with are the longest stretches of pages with the same protection,
type and commitment, so they depend on the map of the pages only (`Segments.Merged`). The two builds
end with the same VADs as long as `kalloc` does not fail (`protectAt_same`).
-/

namespace Aegis

variable {h : Host} {oom : Nat → Bool}

open SwapList Apart Segments Outcome

section
variable {α : Type}
variable {l : List (Slot α)}

/-- What the VAD says of its pages. -/
def Vad.attr (v : Vad) : Prot × Nat × Nat := (v.prot, v.type, v.committed)

/-- What the VADs say of a page. -/
def pageMap (l : List (Slot α)) (q : Nat) : Option (Prot × Nat × Nat) :=
  (vadLookup l (q * pageSize)).map fun x => x.1.attr

/-- The VADs of an address space, without the host's arrays. -/
def vadsOf (l : List (Slot α)) : List Vad := l.map fun v => v.toVad

/-- No two neighbours could be joined. -/
def Canonical (l : List Vad) : Prop :=
  ∀ v ∈ l, ∀ u ∈ l, v.stop = u.start →
    ¬ (v.prot = u.prot ∧ v.type = u.type ∧ v.committed = u.committed)

theorem pageMap_erase (l : List (Slot α)) (q : Nat) : pageMap (l.map Slot.erase) q = pageMap l q := by
  unfold pageMap
  rw [vadLookup_erase, Option.map_map]
  rfl

theorem vadsOf_erase (l : List (Slot α)) : vadsOf (l.map Slot.erase) = vadsOf l := by
  unfold vadsOf
  rw [List.map_map]
  rfl

theorem pageMap_eq_some (hok : ∀ v ∈ l, v.Ok) (happ : AllApart l) {a : Nat} {x : Prot × Nat × Nat} :
    pageMap l (a / 4096) = some x ↔ ∃ v ∈ l, v.Has a ∧ v.attr = x :=
  dataAt_page (f := fun v => v.attr) hok happ

theorem pageMap_congr {β : Type} {l' : List (Slot β)} {q : Nat} (hprot : protAt l q = protAt l' q)
    (hrest : (pageMap l q).map Prod.snd = (pageMap l' q).map Prod.snd) :
    pageMap l q = pageMap l' q := by
  unfold protAt at hprot
  unfold pageMap at hrest ⊢
  generalize vadLookup l (q * pageSize) = x at hprot hrest ⊢
  generalize vadLookup l' (q * pageSize) = y at hprot hrest ⊢
  cases x <;> cases y <;> simp_all [Vad.attr]

end

/-! ## The rounds -/

section
variable {as as' : Aspace Unit}

theorem canonical_of_mergePair {l : List (Slot Unit)} (hm : mergePair l = none) (hne : NoneEmpty l) :
    Canonical (vadsOf l) := by
  intro v hv u hu hmeet heq
  obtain ⟨x, hx, rfl⟩ := List.mem_map.1 hv
  obtain ⟨y, hy, rfl⟩ := List.mem_map.1 hu
  refine mergePair_none hm hx hy ?_ hmeet heq.1 heq.2.1 heq.2.2
  rintro rfl
  exact absurd hmeet (Nat.ne_of_gt (hne x hx))

theorem merged_of_mergePair (h : VadInv as) (hne : NoneEmpty as.slots)
    (hm : mergePair as.slots = none) :
    Merged (fun v : Slot Unit => v.start) (fun v => v.stop) (fun v => v.attr) as.slots := by
  refine ⟨h.apart, hne, fun v hv u hu hmeet heq => ?_⟩
  have hc := canonical_of_mergePair hm hne v.toVad (List.mem_map_of_mem hv) u.toVad
    (List.mem_map_of_mem hu) hmeet
  simp only [Vad.attr, Prod.mk.injEq] at heq
  exact hc heq

theorem Slot.eq_of_attr {u v : Slot Unit} (hstart : u.start = v.start) (hstop : u.stop = v.stop)
    (hattr : u.attr = v.attr) : u = v := by
  obtain ⟨⟨_, _, _, _, _⟩, ⟨⟩⟩ := u
  obtain ⟨⟨_, _, _, _, _⟩, ⟨⟩⟩ := v
  simp_all [Vad.attr]

/-- Where nothing can be joined, the map of the pages determines the VADs. -/
theorem perm_of_pageMap (h : VadInv as) (hne : NoneEmpty as.slots) (hm : mergePair as.slots = none)
    (h' : VadInv as') (hne' : NoneEmpty as'.slots) (hm' : mergePair as'.slots = none)
    (hmap : ∀ q, pageMap as.slots q = pageMap as'.slots q) : as.slots.Perm as'.slots := by
  have hmerged := merged_of_mergePair h hne hm
  have hmerged' := merged_of_mergePair h' hne' hm'
  have hat : ∀ n x, At (fun v : Slot Unit => v.start) (fun v => v.stop) (fun v => v.attr) as.slots n x ↔
      At (fun v : Slot Unit => v.start) (fun v => v.stop) (fun v => v.attr) as'.slots n x := by
    intro n x
    refine (pageMap_eq_some h.ok h.apart).symm.trans ?_
    rw [hmap]
    exact pageMap_eq_some h'.ok h'.apart
  rw [List.perm_ext_iff_of_nodup hmerged.nodup hmerged'.nodup]
  intro v
  constructor
  · intro hv
    obtain ⟨u, hu, h1, h2, h3⟩ := hmerged.exists_of_mem hmerged' hat hv
    exact Slot.eq_of_attr h1 h2 h3 ▸ hu
  · intro hv
    obtain ⟨u, hu, h1, h2, h3⟩ := hmerged'.exists_of_mem hmerged (fun n x => (hat n x).symm) hv
    exact Slot.eq_of_attr h1 h2 h3 ▸ hu

theorem hwCoalesce_pageMap (k : Nat) (h : VadInv as) (q : Nat) :
    pageMap (hwCoalesce k as.slots) q = pageMap as.slots q := by
  induction k generalizing as with
  | zero => rfl
  | succ k ih =>
    unfold hwCoalesce
    cases hm : mergePair as.slots with
    | none => rfl
    | some x =>
      obtain ⟨⟨v, i⟩, u, j⟩ := x
      obtain ⟨hi, hj, -, -, hprot, htype, hcom⟩ := mergePair_some hm
      have hj' := joinVads_joined hm ()
      have hinv : VadInv { as with slots := joinVads as.slots v i u.stop j } := hj'.inv h
      refine (ih hinv).trans ?_
      exact hj'.dataAt (f := fun v _ => v.attr) h.apart hinv.apart
        (h.ok v (List.mem_of_getElem? hi)).le (h.ok u (List.mem_of_getElem? hj)).le (fun _ => rfl)
        fun _ => by simp only [Vad.attr, hprot, htype, hcom]

/-- What `vad_coalesce` ends with. -/
structure CoalescedTo (as : Aspace Unit) (l : List (Slot Unit)) : Prop where
  vads : VadInv { as with slots := l }
  noneEmpty : NoneEmpty l
  merged : mergePair l = none
  pages : ∀ q, pageMap l q = pageMap as.slots q

theorem hwCoalesce_coalesced (h : VadInv as) (hne : NoneEmpty as.slots) :
    CoalescedTo as (hwCoalesce as.slots.length as.slots) where
  vads := hwCoalesce_keeps (P := fun l => VadInv { as with slots := l })
    (fun _ _ _ _ _ hp hj => hj.inv hp) _ h
  noneEmpty := hwCoalesce_keeps (P := NoneEmpty) (fun _ _ _ _ _ hp hj => hj.noneEmpty hp) _ hne
  merged := hwCoalesce_merged le_rfl
  pages := hwCoalesce_pageMap _ h

theorem CoalescedTo.perm {l l' : List (Slot Unit)} (h : CoalescedTo as l) (h' : CoalescedTo as' l')
    (hmap : ∀ q, pageMap as.slots q = pageMap as'.slots q) : l.Perm l' :=
  perm_of_pageMap h.vads h.noneEmpty h.merged h'.vads h'.noneEmpty h'.merged fun q => by
    rw [h.pages, h'.pages, hmap]

end

/-! ## `vmm_protect_user` -/

section
variable {σ : Type} {m : Mmu σ} {s s' : HwState σ} {base size : Nat} {prot : Prot} {old : Option Prot}

theorem protectClips_last {one : HwState σ → Nat → Nat → Outcome (Status × Option Prot × HwState σ)}
    {P : HwState σ → Prop} (hone : ∀ s lo n old s', one s lo n = .ok (.success, old, s') → P s')
    (clips : List (Nat × Nat)) (h : P s ∨ clips ≠ [])
    (hr : protectClips one clips s = .ok (.success, s')) : P s' := by
  induction clips generalizing s with
  | nil =>
    cases hr
    exact h.resolve_right fun hne => hne rfl
  | cons x clips ih =>
    unfold protectClips at hr
    obtain ⟨⟨st, o, s1⟩, hx, hr⟩ := bind_eq_ok.1 hr
    simp only at hr
    split at hr
    · next hst =>
      cases hr
      cases hst
    · next hst =>
      obtain rfl : st = .success := (ntSuccess_iff st).1 (by simpa using hst)
      exact ih (.inl (hone _ _ _ _ _ hx)) hr

theorem protectContained_merged (s : HwState σ) (i : Nat) (v : Slot Unit) (base size stop : Nat)
    (hr : HwState.protectContained m s i v base size stop prot = (.success, old, s')) :
    mergePair s'.as.slots = none := by
  unfold HwState.protectContained at hr
  simp only at hr
  by_cases hroom : s.as.slots.length + ((if pagesBetween v.start base ≠ 0 then 1 else 0) +
      (if pagesBetween stop v.stop ≠ 0 then 1 else 0)) > maxVads
  · rw [if_pos hroom] at hr
    cases hr
  · rw [if_neg hroom] at hr
    cases hr
    exact hwCoalesce_merged le_rfl

theorem protectAt_merged (k : Nat) : ∀ (s : HwState σ) (base size : Nat) (old : Option Prot)
    (s' : HwState σ), HwState.protectAt m prot k s base size = .ok (.success, old, s') →
      mergePair s'.as.slots = none := by
  induction k with
  | zero => exact fun s base size old s' hr => by cases hr
  | succ k ih =>
    intro s base size old s' hr
    rcases HwState.protectAt_cases m prot s base size with
      ⟨st, hst, hr'⟩ | ⟨-, hpos, ⟨v, i, -, hr'⟩ | ⟨v, n, clips, -, -, hchain, hr'⟩⟩
    · rw [hr'] at hr
      cases hr
      exact absurd rfl hst
    · rw [hr'] at hr
      exact protectContained_merged s i v _ _ _ (ok.inj hr)
    · rw [hr'] at hr
      obtain ⟨⟨st, s1⟩, hclips, hr⟩ := bind_eq_ok.1 hr
      cases hr
      refine protectClips_last (P := fun s => mergePair s.as.slots = none)
        (fun s lo n old s' h => ih s lo n old s' h) clips (.inr ?_) hclips
      rintro rfl
      have hle : pageAlignDown base + pageAlignUp size ≤ pageAlignDown base := hchain
      omega

theorem rest_eq {α : Type} (l : List (Slot α)) (q : Nat) :
    (pageMap l q).map Prod.snd = dataAt (fun v _ => (v.type, v.committed)) l (q * 4096) := by
  unfold pageMap dataAt
  rw [Option.map_map]
  rfl

theorem contained_rest (m : Mmu σ) (prot : Prot) (q : Nat) (x : Option (Nat × Nat)) :
    HwState.ContainedKeeps m prot fun s => (pageMap s.as.slots q).map Prod.snd = x := by
  intro s base size v i h hP hc
  rcases HwState.protectContained_cases m h hc prot with he | ⟨nl, nr, hp, he⟩
  · rw [he]
    exact hP
  · rw [he]
    obtain ⟨hi, hpart, -, hl, hr⟩ := hp.part h
    have hinv := hp.inv h prot () () ()
    have hsplit := dataAt_protectSplit (f := fun v _ => (v.type, v.committed)) (p := q * 4096) h.apart hi
      (h.ok v (List.mem_of_getElem? hi)) hpart hl hr hinv.apart (by omega)
      ⟨fun _ _ => rfl, fun _ _ => rfl⟩
    refine (congrArg (Option.map Prod.snd) (hwCoalesce_pageMap _ hinv q)).trans ?_
    rw [← hP, rest_eq, rest_eq]
    refine hsplit.trans ?_
    split
    · next hq =>
      have hhas : v.Has (q * 4096) := ⟨hpart.start_le.trans hq.1, hq.2.trans_le hpart.le_stop⟩
      rw [dataAt_getElem h.apart hi hhas]
    · rfl

theorem vmmProtectUser_coalesced (h : VadInv s.as) (hne : NoneEmpty s.as.slots)
    (hr : HwState.vmmProtectUser m s base size prot = .ok (.success, old, s')) :
    VadInv s'.as ∧ NoneEmpty s'.as.slots ∧ mergePair s'.as.slots = none ∧
      ∀ q, (pageMap s'.as.slots q).map Prod.snd = (pageMap s.as.slots q).map Prod.snd := by
  obtain ⟨r, hr1, hinv, hne'⟩ := HwState.vmmProtectUser_keeps prot
    (fun _ => HwState.contained_noneEmpty m prot) h hne base size
  rw [hr] at hr1
  cases ok.inj hr1
  refine ⟨hinv, hne', protectAt_merged 2 s base size old s' hr, fun q => ?_⟩
  obtain ⟨r, hr2, -, hrest⟩ := HwState.vmmProtectUser_keeps prot
    (fun _ => contained_rest m prot q ((pageMap s.as.slots q).map Prod.snd)) h rfl base size
  rw [hr] at hr2
  cases ok.inj hr2
  exact hrest

/-- Protecting a range and protecting it back joins neighbours, and nothing else. -/
theorem vmmProtectUser_restore {s1 s2 : HwState σ} {old' : Option Prot} {pr : Prot}
    (h : VadInv s.as) (hne : NoneEmpty s.as.slots)
    (hone : ∀ q, InRange (pageAlignDown base) (pageAlignDown base + pageAlignUp size) q →
      protAt s.as.slots q = some pr)
    (hr : HwState.vmmProtectUser m s base size prot = .ok (.success, old, s1))
    (hr' : HwState.vmmProtectUser m s1 base size pr = .ok (.success, old', s2)) :
    s2.as.slots.Perm (hwCoalesce s.as.slots.length s.as.slots) := by
  obtain ⟨h1, hne1, -, hrest1⟩ := vmmProtectUser_coalesced h hne hr
  obtain ⟨h2, hne2, hm2, hrest2⟩ := vmmProtectUser_coalesced h1 hne1 hr'
  have hc := hwCoalesce_coalesced h hne
  refine perm_of_pageMap h2 hne2 hm2 hc.vads hc.noneEmpty hc.merged fun q => ?_
  refine (pageMap_congr ?_ ((hrest2 q).trans (hrest1 q))).trans (hc.pages q).symm
  rw [HwState.vmmProtectUser_protAt h1 hne1 hr' q, HwState.vmmProtectUser_protAt h hne hr q]
  split
  · next hq => exact (hone q hq).symm
  · rfl

theorem Host.vmmProtectUser_same {oom : Nat → Bool} {h h' : Host} (hs : SameVads oom h s.as)
    (hr : h.vmmProtectUser oom base size prot = .ok (.success, old, h')) :
    ∃ s', HwState.vmmProtectUser m s base size prot = .ok (.success, old, s') ∧
      SameVads oom h' s'.as := by
  rcases protectAt_same (m := m) prot 2 hs base size with ⟨hd, -⟩ | ⟨st, o, h1, s', he, he', hs'⟩
  · rw [Host.vmmProtectUser, hd] at hr
    cases hr
  · rw [Host.vmmProtectUser, he] at hr
    cases ok.inj hr
    exact ⟨s', he', hs'⟩

end

theorem HostInv.sameVads (hinv : HostInv h) (ho : NeverFails oom h) :
    SameVads oom h ⟨h.as.slots.map Slot.erase, h.as.committedPages, h.as.brk⟩ :=
  ⟨hinv, (hinv.vads.map Slot.erase fun _ => rfl), rfl, ho⟩

theorem vadCoalesce_coalesced (hinv : HostInv h) (ho : NeverFails oom h) :
    ∃ c, Host.vadCoalesce oom h.as.slots.length h = .ok c ∧
      CoalescedTo ⟨h.as.slots.map Slot.erase, h.as.committedPages, h.as.brk⟩
        (c.as.slots.map Slot.erase) := by
  obtain ⟨c, hr, -, -, hslots⟩ := vadCoalesce_same h.as.slots.length hinv ho
  refine ⟨c, hr, ?_⟩
  have hc := hwCoalesce_coalesced (hinv.vads.map Slot.erase fun _ => rfl)
    (hinv.noneEmpty.map Slot.erase fun _ => rfl)
  rw [List.length_map] at hc
  rw [hslots]
  exact hc

/-- `vad_coalesce` ends with VADs of which no neighbours could be joined, and the map of the pages
determines them; so protecting a range and protecting it back leaves what joining neighbours does. -/
theorem vadCoalesce_canonical :
    (∀ as as' : Aspace Unit, VadInv as → NoneEmpty as.slots → VadInv as' → NoneEmpty as'.slots →
      Canonical (vadsOf (hwCoalesce as.slots.length as.slots)) ∧
      ((∀ q, pageMap as.slots q = pageMap as'.slots q) →
        (vadsOf (hwCoalesce as.slots.length as.slots)).Perm
          (vadsOf (hwCoalesce as'.slots.length as'.slots)))) ∧
    (∀ (oom : Nat → Bool) (h h' : Host), HostInv h → NeverFails oom h → HostInv h' →
      NeverFails oom h' → ∃ c c', Host.vadCoalesce oom h.as.slots.length h = .ok c ∧
        Host.vadCoalesce oom h'.as.slots.length h' = .ok c' ∧ Canonical (vadsOf c.as.slots) ∧
        ((∀ q, pageMap h.as.slots q = pageMap h'.as.slots q) →
          (vadsOf c.as.slots).Perm (vadsOf c'.as.slots))) ∧
    (∀ (σ : Type) (m : Mmu σ) (s s₁ s₂ : HwState σ) (base size : Nat) (prot pr : Prot)
      (old old' : Option Prot), VadInv s.as → NoneEmpty s.as.slots →
      (∀ q, InRange (pageAlignDown base) (pageAlignDown base + pageAlignUp size) q →
        protAt s.as.slots q = some pr) →
      HwState.vmmProtectUser m s base size prot = .ok (.success, old, s₁) →
      HwState.vmmProtectUser m s₁ base size pr = .ok (.success, old', s₂) →
      (vadsOf s₂.as.slots).Perm (vadsOf (hwCoalesce s.as.slots.length s.as.slots))) ∧
    ∀ (oom : Nat → Bool) (h h₁ h₂ : Host) (base size : Nat) (prot pr : Prot)
      (old old' : Option Prot), HostInv h → NeverFails oom h →
      (∀ q, InRange (pageAlignDown base) (pageAlignDown base + pageAlignUp size) q →
        protAt h.as.slots q = some pr) →
      h.vmmProtectUser oom base size prot = .ok (.success, old, h₁) →
      h₁.vmmProtectUser oom base size pr = .ok (.success, old', h₂) →
      ∃ c, Host.vadCoalesce oom h.as.slots.length h = .ok c ∧
        (vadsOf h₂.as.slots).Perm (vadsOf c.as.slots) := by
  refine ⟨?_, ?_, ?_, ?_⟩
  · intro as as' h hne h' hne'
    have hc := hwCoalesce_coalesced h hne
    refine ⟨canonical_of_mergePair hc.merged hc.noneEmpty, fun hmap => ?_⟩
    exact (hc.perm (hwCoalesce_coalesced h' hne') hmap).map _
  · intro oom h h' hinv ho hinv' ho'
    obtain ⟨c, hr, hc⟩ := vadCoalesce_coalesced hinv ho
    obtain ⟨c', hr', hc'⟩ := vadCoalesce_coalesced hinv' ho'
    refine ⟨c, c', hr, hr', ?_, fun hmap => ?_⟩
    · rw [← vadsOf_erase]
      exact canonical_of_mergePair hc.merged hc.noneEmpty
    · rw [← vadsOf_erase c.as.slots, ← vadsOf_erase c'.as.slots]
      refine (hc.perm hc' fun q => ?_).map _
      rw [pageMap_erase, pageMap_erase, hmap]
  · intro σ m s s₁ s₂ base size prot pr old old' h hne hone hr hr'
    exact (vmmProtectUser_restore h hne hone hr hr').map _
  · intro oom h h₁ h₂ base size prot pr old old' hinv ho hone hr hr'
    -- any page tables will do
    have m : Mmu Unit := ⟨fun d _ => (.success, d), fun d _ => (true, d), fun d _ _ => d,
      fun d _ _ _ => d, fun d _ _ _ => (.success, d)⟩
    have hs := hinv.sameVads ho
    obtain ⟨s₁, hw1, hs1⟩ := Host.vmmProtectUser_same (m := m) (s := ⟨_, ()⟩) hs hr
    obtain ⟨s₂, hw2, hs2⟩ := Host.vmmProtectUser_same (m := m) hs1 hr'
    obtain ⟨c, hc, -, -, hslots⟩ := vadCoalesce_same h.as.slots.length hinv ho
    refine ⟨c, hc, ?_⟩
    have hperm := vmmProtectUser_restore hs.hw (hinv.noneEmpty.map Slot.erase fun _ => rfl)
      (fun q hq => (protAt_erase h.as.slots q).trans (hone q hq)) hw1 hw2
    rw [List.length_map, ← hslots, ← hs2.slots] at hperm
    rw [← vadsOf_erase h₂.as.slots, ← vadsOf_erase c.as.slots]
    exact hperm.map _

/-- The first of two pages is made read only and writable again, in both builds. -/
theorem vadCoalesce_canonical_pages :
    (Canonical (vadsOf (hwCoalesce twoPages.slots.length twoPages.slots)) ∧
      ∀ m : Mmu Unit, ∃ s₁ s₂,
        HwState.vmmProtectUser m ⟨twoPages, ()⟩ 0x10000 0x1000 pageReadOnly =
          .ok (.success, some pageReadWrite, s₁) ∧
        HwState.vmmProtectUser m s₁ 0x10000 0x1000 pageReadWrite =
          .ok (.success, some pageReadOnly, s₂) ∧
        (vadsOf s₂.as.slots).Perm (vadsOf (hwCoalesce twoPages.slots.length twoPages.slots))) ∧
    ∃ s c h₁ h₂, Run.run (Host.step fun _ => false) Host.init borderCalls = some s ∧
      Host.vadCoalesce (fun _ => false) s.as.slots.length s = .ok c ∧
      Canonical (vadsOf c.as.slots) ∧
      s.vmmProtectUser (fun _ => false) 0x10000 0x1000 pageReadOnly =
        .ok (.success, some pageReadWrite, h₁) ∧
      h₁.vmmProtectUser (fun _ => false) 0x10000 0x1000 pageReadWrite =
        .ok (.success, some pageReadOnly, h₂) ∧
      (vadsOf h₂.as.slots).Perm (vadsOf c.as.slots) := by
  have hrange : ∀ q, InRange (pageAlignDown 0x10000) (pageAlignDown 0x10000 + pageAlignUp 0x1000) q →
      q = 16 := by
    intro q hq
    have hdown : pageAlignDown 0x10000 = 0x10000 := by decide
    have hup : pageAlignUp 0x1000 = 0x1000 := by decide
    unfold InRange at hq
    omega
  obtain ⟨h1, h2⟩ := twoPages_inv
  refine ⟨⟨(vadCoalesce_canonical.1 _ _ h1 h2 h1 h2).1, fun m => ⟨_, _, rfl, rfl, ?_⟩⟩, ?_⟩
  · refine vadCoalesce_canonical.2.2.1 Unit m ⟨twoPages, ()⟩ _ _ 0x10000 0x1000 pageReadOnly
      pageReadWrite _ _ h1 h2 (fun q hq => ?_) rfl rfl
    obtain rfl := hrange q hq
    rfl
  · obtain ⟨s, hs, hinv⟩ := Host.run_inv (fun _ => false) (by decide : ∀ c ∈ borderCalls, c.Legal)
    have hmem : NeverFails (fun _ => false) s := fun _ _ => rfl
    obtain ⟨c, -, hc, -, hcanon, -⟩ := vadCoalesce_canonical.2.1 _ s s hinv hmem hinv hmem
    cases Option.some.inj hs
    refine ⟨_, c, _, _, hs, hc, hcanon, rfl, rfl, ?_⟩
    obtain ⟨c', hc', hperm⟩ := vadCoalesce_canonical.2.2.2 (fun _ => false) _ _ _ 0x10000 0x1000
      pageReadOnly pageReadWrite _ _ hinv hmem (fun q hq => by
        obtain rfl := hrange q hq
        rfl) rfl rfl
    rw [hc] at hc'
    cases ok.inj hc'
    exact hperm

end Aegis
