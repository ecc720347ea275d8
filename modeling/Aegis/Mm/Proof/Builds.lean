import Aegis.Mm.Proof.HostProtect
import Aegis.Mm.Proof.VmmHw

/-!
# The two builds on the VAD array

As long as `kalloc` does not fail, the host build does to the VADs what the hardware build does
(`protectAt_same`). So what is known of the VADs of the host build holds of the hardware build.
-/

namespace Aegis

open SwapList

/-! ## The VADs alone -/

section
variable {α : Type} {l : List (Slot α)}

/-- The VAD without what the build keeps beside it. -/
def Slot.erase (v : Slot α) : Slot Unit := { v with shadow := () }

@[simp] theorem Slot.erase_toVad (v : Slot α) : v.erase.toVad = v.toVad := rfl

section
variable (l : List (Slot α))

theorem vadLookup_erase (page : Nat) :
    vadLookup (l.map Slot.erase) page = (vadLookup l page).map (Prod.map Slot.erase id) :=
  findAt_map Slot.erase _ l

theorem vadContainsRange_erase (base stop : Nat) :
    vadContainsRange (l.map Slot.erase) base stop =
      (vadContainsRange l base stop).map (Prod.map Slot.erase id) := by
  unfold vadContainsRange
  split
  · rfl
  · exact findAt_map Slot.erase _ l

theorem runLoop_erase (stop k cur n : Nat) :
    runLoop (l.map Slot.erase) stop k cur n = runLoop l stop k cur n := by
  induction k generalizing cur n with
  | zero => rfl
  | succ k ih =>
    unfold runLoop
    rw [vadLookup_erase]
    split
    · cases vadLookup l cur with
      | none => rfl
      | some x =>
        simp only [Option.map_some, Prod.map_fst, Slot.erase_toVad, ih]
    · rfl

theorem vadRunCovers_erase (base stop : Nat) :
    vadRunCovers (l.map Slot.erase) base stop =
      (vadRunCovers l base stop).map (Prod.map Slot.erase id) := by
  unfold vadRunCovers
  rw [vadLookup_erase]
  split
  · rfl
  · cases vadLookup l (pageAlignDown base) with
    | none => rfl
    | some x =>
      simp only [Option.map_some, Prod.map_fst, runLoop_erase, Option.map_map]
      rfl

theorem clipLoop_erase (stop k cur : Nat) :
    clipLoop (l.map Slot.erase) stop k cur = clipLoop l stop k cur := by
  induction k generalizing cur with
  | zero => rfl
  | succ k ih =>
    unfold clipLoop
    rw [vadLookup_erase]
    split
    · cases vadLookup l cur with
      | none => rfl
      | some x =>
        simp only [Option.map_some, Prod.map_fst, Slot.erase_toVad, ih]
        rfl
    · rfl

theorem mergePair_erase :
    mergePair (l.map Slot.erase) =
      (mergePair l).map (Prod.map (Prod.map Slot.erase id) (Prod.map Slot.erase id)) := by
  unfold mergePair
  rw [List.zipIdx_map, List.findSome?_map, List.map_findSome?]
  congr 1
  funext x
  rw [Function.comp_apply, Function.comp_apply, List.find?_map, Option.map_map, Option.map_map]
  rfl

theorem joinVads_erase (keep : Slot α) (i stop j : Nat) :
    joinVads (l.map Slot.erase) keep.erase i stop j =
      (joinVads l keep i stop j).map Slot.erase := by
  unfold joinVads
  rw [← swapRemove_map, List.map_set]
  rfl

theorem protectSplit_erase (i : Nat) (v : Slot α) (base stop : Nat) (prot : Prot)
    (nLeft nRight : Nat) (left mid right : α) :
    protectSplit (l.map Slot.erase) i v.erase base stop prot nLeft nRight () () () =
      (protectSplit l i v base stop prot nLeft nRight left mid right).map Slot.erase := by
  unfold protectSplit
  simp only
  split <;> split <;> simp only [List.map_append, List.map_set] <;> rfl

end

end

/-! ## Neighbours -/

section
variable {oom : Nat → Bool} {as : Aspace Unit}

theorem VadInv.map {α β : Type} {as : Aspace α} (h : VadInv as) (f : Slot α → Slot β)
    (hf : ∀ v, (f v).toVad = v.toVad) : VadInv ⟨as.slots.map f, as.committedPages, as.brk⟩ := by
  refine ⟨?_, fun v hv => ?_, List.pairwise_map.2 (h.apart.imp fun {v u} hoff => ?_), ?_, h.limit,
    h.brk⟩
  · rw [List.length_map]
    exact h.count
  · obtain ⟨u, hu, rfl⟩ := List.mem_map.1 hv
    rw [hf]
    exact h.ok u hu
  · simp only [Apart.Off, hf] at hoff ⊢
    exact hoff
  · show as.committedPages = _
    rw [h.committed, totalPages, totalPages, List.map_map]
    simp only [Function.comp_def, hf]

theorem NoneEmpty.map {α β : Type} {l : List (Slot α)} (h : NoneEmpty l) (f : Slot α → Slot β)
    (hf : ∀ v, (f v).toVad = v.toVad) : NoneEmpty (l.map f) := by
  intro v hv
  obtain ⟨u, hu, rfl⟩ := List.mem_map.1 hv
  rw [hf]
  exact h u hu

/-- No call of `kalloc` from now on fails. -/
def NeverFails (oom : Nat → Bool) (h : Host) : Prop := ∀ n, h.next ≤ n → oom n = false

theorem vadCoalesce_same (k : Nat) {h : Host} (hinv : HostInv h) (ho : NeverFails oom h) :
    ∃ h', Host.vadCoalesce oom k h = .ok h' ∧ HostInv h' ∧ NeverFails oom h' ∧
      h'.as.slots.map Slot.erase = hwCoalesce k (h.as.slots.map Slot.erase) := by
  induction k generalizing h with
  | zero => exact ⟨h, rfl, hinv, ho, rfl⟩
  | succ k ih =>
    unfold hwCoalesce
    rw [mergePair_erase]
    cases hm : mergePair h.as.slots with
    | none => exact ⟨h, by rw [Host.vadCoalesce, hm], hinv, ho, rfl⟩
    | some x =>
      obtain ⟨⟨v, i⟩, ⟨u, j⟩⟩ := x
      rcases vadCoalesce_round oom k hinv hm with ⟨hfail, -⟩ | ⟨h1, x, he, hkept, hle, hslots⟩
      · rw [ho h.next le_rfl] at hfail
        cases hfail
      · obtain ⟨h', hr, hinv', ho', hsame⟩ := ih hkept.inv fun n hn => ho n (hle.trans hn)
        refine ⟨h', he.trans hr, hinv', ho', hsame.trans ?_⟩
        rw [hslots, ← joinVads_erase]
        rfl

/-- The states of the two builds: the same VADs, and memory for the host. -/
structure SameVads (oom : Nat → Bool) (h : Host) (as : Aspace Unit) : Prop where
  host : HostInv h
  hw : VadInv as
  slots : h.as.slots.map Slot.erase = as.slots
  memory : NeverFails oom h

/-- A host without arrays has the VADs of the hardware build. -/
theorem exists_same (hv : VadInv as) (hne : NoneEmpty as.slots) :
    ∃ h : Host, SameVads (fun _ => false) h as := by
  let up : Slot Unit → Slot Shadow := fun v => { v with shadow := ⟨none, 0⟩ }
  have hnone : ∀ v ∈ as.slots.map up, v.shadow.pages = none := by
    intro v hv
    obtain ⟨u, -, rfl⟩ := List.mem_map.1 hv
    rfl
  have hids : allIds (as.slots.map up) = [] := by
    apply List.flatMap_eq_nil_iff.2
    intro v hv
    exact Slot.ids_of_none (hnone v hv)
  refine ⟨⟨⟨as.slots.map up, as.committedPages, as.brk⟩, fun _ => none, 0⟩,
    ⟨hv.map up fun _ => rfl, hne.map up fun _ => rfl, fun v hv => ⟨?_, ?_⟩, ?_, ?_⟩, hv, ?_,
    fun _ _ => rfl⟩
  · rw [Slot.table, hnone v hv, tableOf, Option.getD_none, List.length_replicate]
  · intro hn
    exact absurd (hnone v hv) hn
  · rw [hids]
    exact List.nodup_nil
  · intro x hx
    rw [hids] at hx
    cases hx
  · rw [List.map_map]
    exact List.map_id _

end

/-! ## `vmm_protect_user` -/

section
variable {σ : Type} {m : Mmu σ} {oom : Nat → Bool} {h : Host} {s : HwState σ} {v : Slot Shadow}
  {i base size : Nat}

/-- The replies of the two builds, which end with the same VADs. -/
def SameReply (oom : Nat → Bool) (r : Outcome (Status × Option Prot × Host))
    (r' : Outcome (Status × Option Prot × HwState σ)) : Prop :=
  (r = .diverge ∧ r' = .diverge) ∨
    ∃ st old h s, r = .ok (st, old, h) ∧ r' = .ok (st, old, s) ∧ SameVads oom h s.as

theorem sameReply_ok (st : Status) (old : Option Prot) (hs : SameVads oom h s.as) :
    SameReply oom (.ok (st, old, h)) (.ok (st, old, s)) := .inr ⟨st, old, h, s, rfl, rfl, hs⟩

theorem protectContained_same (hs : SameVads oom h s.as)
    (hc : Contained h.as.slots base size v i) (prot : Prot) :
    SameReply oom (h.protectContained oom i v base size (u64 (base + size)) prot)
      (.ok (HwState.protectContained m s i v.erase base size (u64 (base + size)) prot)) := by
  have hc' : Contained s.as.slots base size v.erase i := by
    refine ⟨hc.aligned, hc.pages, hc.lt, hc.inside, ?_⟩
    rw [← hs.slots, vadContainsRange_erase, hc.target]
    rfl
  have hinv := (HwState.protectContained_inv (m := m) hs.hw hc' prot).1
  have hprotected {nl nr : Nat} :
      Protected s.as base size v.erase i nl nr ↔ Protected h.as base size v i nl nr := by
    have hlen : s.as.slots.length = h.as.slots.length := by rw [← hs.slots, List.length_map]
    constructor
    · rintro ⟨-, hl, hr, hroom⟩
      exact ⟨hc, hl, hr, hlen ▸ hroom⟩
    · rintro ⟨-, hl, hr, hroom⟩
      exact ⟨hc', hl, hr, hlen ▸ hroom⟩
  rcases Host.protectContained_cases oom hs.host hc prot with
    ⟨he, hno⟩ | ⟨nl, nr, hp, ⟨k, -, ⟨n, hn, ho⟩, -⟩ | ⟨k, left, mid, right, hk, hstep, he⟩⟩
  · rcases HwState.protectContained_cases m hs.hw hc' prot with he' | ⟨nl, nr, hp, -⟩
    · rw [he, he']
      exact sameReply_ok _ _ hs
    · exact absurd (hprotected.1 hp) (hno nl nr)
  · rw [hs.memory n hn] at ho
    cases ho
  · have hp' := hprotected.2 hp
    have hsplit := protectSplit_erase h.as.slots i v base (base + size) prot nl nr left mid right
    obtain ⟨h', hr, hinv', ho', hsame⟩ := vadCoalesce_same
      (protectSplit h.as.slots i v base (base + size) prot nl nr left mid right).length hstep.inv
      (fun n hn => hs.memory n (hk.trans hn))
    rw [HwState.protectContained_eq hp' hs.hw prot] at hinv ⊢
    rw [he, hr]
    refine .inr ⟨.success, some v.prot, h', _, rfl, rfl, hinv', hinv, ?_, ho'⟩
    rw [hsame, ← hs.slots, hsplit, List.length_map]
    rfl

theorem protectClips_same {one : Host → Nat → Nat → Outcome (Status × Option Prot × Host)}
    {one' : HwState σ → Nat → Nat → Outcome (Status × Option Prot × HwState σ)}
    (hone : ∀ h s lo n, SameVads oom h s.as → SameReply oom (one h lo n) (one' s lo n))
    (clips : List (Nat × Nat)) (old : Option Prot) (hs : SameVads oom h s.as) :
    SameReply oom
      (do let (st, h) ← protectClips one clips h; return (st, old, h))
      (do let (st, s) ← protectClips one' clips s; return (st, old, s)) := by
  induction clips generalizing h s with
  | nil => exact sameReply_ok _ _ hs
  | cons x clips ih =>
    unfold protectClips
    rcases hone h s x.1 (x.2 - x.1) hs with ⟨hr, hr'⟩ | ⟨st, o, h', s', hr, hr', hs'⟩
    · rw [hr, hr']
      exact .inl ⟨rfl, rfl⟩
    · rw [hr, hr']
      simp only [Outcome.ok_bind]
      split
      · exact sameReply_ok _ _ hs'
      · exact ih hs'

theorem protectAt_same (prot : Prot) (k : Nat) (hs : SameVads oom h s.as) (base size : Nat) :
    SameReply oom (Host.protectAt oom prot k h base size)
      (HwState.protectAt m prot k s base size) := by
  induction k generalizing h s base size with
  | zero => exact .inl ⟨rfl, rfl⟩
  | succ k ih =>
    unfold Host.protectAt HwState.protectAt protectRange
    simp only [← hs.slots, vadContainsRange_erase, vadRunCovers_erase, clipLoop_erase]
    split
    · exact sameReply_ok _ _ hs
    split
    · exact sameReply_ok _ _ hs
    split
    · exact sameReply_ok _ _ hs
    next hin =>
    cases hc : vadContainsRange h.as.slots (pageAlignDown base)
        (u64 (pageAlignDown base + pageAlignUp size)) with
    | some x =>
      exact protectContained_same hs ⟨pageAlignDown_mod base, pageAlignUp_mod size,
        pageAlignUp_lt size, by simpa using hin, hc⟩ prot
    | none =>
      simp only [Option.map_none]
      cases vadRunCovers h.as.slots (pageAlignDown base)
          (u64 (pageAlignDown base + pageAlignUp size)) with
      | none => exact sameReply_ok _ _ hs
      | some x =>
        simp only [Option.map_some, Prod.map_snd, id_eq]
        split
        · exact sameReply_ok _ _ hs
        · cases clipLoop h.as.slots (u64 (pageAlignDown base + pageAlignUp size)) maxVads
              (pageAlignDown base) with
          | error st => exact sameReply_ok _ _ hs
          | ok clips => exact protectClips_same (fun h s lo n hs => ih hs lo n) clips _ hs

end

end Aegis
