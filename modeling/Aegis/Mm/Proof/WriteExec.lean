import Aegis.Mm.Proof.Probe
import Aegis.Mm.Proof.RangeCalls

/-!
# Leaves that can be written and executed

`prot_legal` refuses `PAGE_EXECUTE_READWRITE`, while `pte_flags_from_prot` also makes such a leaf from
`PAGE_READWRITE` beside an execute bit. What a successful `vmm_protect_user` installs, at once for
the pages that are there and later for those that `vmm_populate_page` fills in, is therefore decided
by the bits of the protection (`vmmProtectUser_writeExec_iff`).
-/

namespace Aegis

namespace Pte

/-- The leaf can be written to and executed. -/
def WriteExec (e : Pte) : Prop := e.present = true ∧ e.write = true ∧ e.noExecute = false
  deriving Decidable

end Pte

/-- A write bit beside an execute bit, and no `PAGE_NOACCESS` that hides them. -/
def MixesWriteExec (prot : Prot) : Prop :=
  prot &&& pageNoAccess = 0 ∧ prot &&& pageReadWrite ≠ 0 ∧
    prot &&& (pageExecute ||| pageExecuteRead) ≠ 0
  deriving Decidable

theorem prot_and_or (prot a b : Prot) : prot &&& (a ||| b) = (prot &&& a) ||| (prot &&& b) := by
  ext i
  simp [Bool.and_or_distrib_left]

theorem leaf_writeExec_iff {prot : Prot} (hp : protLegal prot = true) (n : Nat) :
    (Pte.leaf n prot).WriteExec ↔
      prot &&& pageReadWrite ≠ 0 ∧ prot &&& (pageExecute ||| pageExecuteRead) ≠ 0 := by
  have hx : prot &&& pageExecuteReadWrite = 0 := by
    by_contra h
    unfold protLegal at hp
    rw [if_pos h] at hp
    cases hp
  unfold Pte.WriteExec Pte.leaf pteFlagsFromProt
  simp only [true_and, decide_eq_true_eq, decide_eq_false_iff_not, ne_eq]
  have hzero (x : Prot) : x ||| 0 = x := BitVec.or_zero
  rw [prot_and_or prot pageReadWrite, prot_and_or prot (pageExecute ||| pageExecuteRead), hx,
    hzero, hzero]

namespace PageTables

variable {n page t : Nat} {e : Pte} {prot : Prot} {d d1 : PageTables}
  {pmm : PageTables → Option Nat}

/-! ## `apply_prot_range` -/

/-- What `apply_prot_range` makes of an entry is the entry, or cannot be both. -/
theorem retarget_writeExec (hp : protLegal prot = true) (hm : ¬ MixesWriteExec prot) (e : Pte) :
    retarget e prot = e ∨ ¬ (retarget e prot).WriteExec := by
  unfold retarget
  by_cases hno : prot &&& pageNoAccess = 0
  · rw [if_neg (by simpa using hno)]
    split
    · refine .inr fun h => hm ⟨hno, ?_⟩
      exact (leaf_writeExec_iff hp e.frame).1 h
    · exact .inl rfl
  · rw [if_pos hno]
    split
    · exact .inr fun h => absurd h.1 Bool.false_ne_true
    · exact .inl rfl

theorem applyProt_writeExec (hp : protLegal prot = true) (hm : ¬ MixesWriteExec prot) (k : Nat) :
    ∀ (page : Nat) (d : PageTables) (t i : Nat), (applyProt prot k page d).entry t i = d.entry t i ∨
        ¬ ((applyProt prot k page d).entry t i).WriteExec := by
  induction k with
  | zero => exact fun page d t i => .inl rfl
  | succ k ih =>
    intro page d t i
    unfold applyProt
    cases d.walk page with
    | none => exact ih (u64 (page + pageSize)) d t i
    | some x =>
      simp only
      rcases ih (u64 (page + pageSize)) (d.setEntry x.1 x.2 (retarget (d.entry x.1 x.2) prot)) t i
        with h | h
      · rw [h, setEntry_entry]
        split
        · next heq =>
          obtain ⟨rfl, rfl⟩ := heq
          exact retarget_writeExec hp hm _
        · exact .inl rfl
      · exact .inr h

/-! ## New tables -/

/-- The frame is not one of the tables. -/
def Fresh (d : PageTables) (n : Nat) : Prop :=
  n ≠ d.root ∧ ∀ t i, (d.entry t i).present = true → (d.entry t i).frame ≠ n

/-- `pmm_alloc` gives out frames that are not in use as tables. -/
def FreshFrames (pmm : PageTables → Option Nat) : Prop := ∀ d n, pmm d = some n → Fresh d n

theorem frameOf_eq_none_of_walk (h : d.walk page = none) : d.frameOf page = none := by
  unfold frameOf leafAt
  rw [h]
  rfl

/-- Clearing a frame that is not a table changes no leaf. -/
theorem walk_of_fresh (hf : Fresh d n) (hroot : d1.root = d.root)
    (he : ∀ t i, t ≠ n → d1.entry t i = d.entry t i) (va : Nat) : d1.walk va = d.walk va := by
  dsimp only [walk]
  rw [hroot, he d.root _ hf.1.symm]
  by_cases h4 : (d.entry d.root (tableIndex va 39)).present = false
  · rw [if_pos h4, if_pos h4]
  · rw [if_neg h4, if_neg h4, he _ _ (hf.2 _ _ (by simpa using h4))]
    by_cases h3 : (d.entry (d.entry d.root (tableIndex va 39)).frame (tableIndex va 30)).present = false
    · rw [if_pos h3, if_pos h3]
    · rw [if_neg h3, if_neg h3, he _ _ (hf.2 _ _ (by simpa using h3))]

theorem leafAt_of_fresh (hf : Fresh d n) (hroot : d1.root = d.root)
    (he : ∀ t i, t ≠ n → d1.entry t i = d.entry t i) (va : Nat) : d1.leafAt va = d.leafAt va := by
  unfold leafAt
  rw [walk_of_fresh hf hroot he va]
  cases hw : d.walk va with
  | none => rfl
  | some x =>
    obtain ⟨-, -, h2, -, rfl⟩ := walk_eq_some.1 hw
    exact congrArg some (he _ _ (hf.2 _ _ h2))

theorem pmmAlloc_some (hn : pmm d = some n) :
    ∃ d1 : PageTables, d.pmmAlloc pmm = (some n, d1) ∧ d1.root = d.root ∧
      ∀ t i, d1.entry t i = if t = n then {} else d.entry t i := by
  unfold PageTables.pmmAlloc
  rw [hn]
  exact ⟨_, rfl, rfl, fun t i => rfl⟩

theorem Fresh.cleared (hf : Fresh d n) (hroot : d1.root = d.root)
    (he : ∀ t i, d1.entry t i = if t = n then {} else d.entry t i) : Fresh d1 n := by
  refine ⟨hroot ▸ hf.1, fun t i h => ?_⟩
  rw [he] at h ⊢
  split at h
  · cases h
  · next hne =>
    rw [if_neg hne]
    exact hf.2 t i h

theorem walk_eq {va : Nat} {e4 e3 e2 : Pte} (h4 : d.entry d.root (tableIndex va 39) = e4)
    (h3 : d.entry e4.frame (tableIndex va 30) = e3)
    (h2 : d.entry e3.frame (tableIndex va 21) = e2) :
    d.walk va = if e4.present = false then none
      else if e3.present = false then none
      else if e2.large then none
      else if e2.present = false then none
      else some (e2.frame, tableIndex va 12) := by
  subst h4 h3 h2
  rfl

theorem setEntry_of_present {i t' i' : Nat} (e : Pte) (hp : (d.entry t i).present = false)
    (hp' : (d.entry t' i').present ≠ false) : (d.setEntry t i e).entry t' i' = d.entry t' i' := by
  rw [setEntry_entry]
  apply if_neg
  rintro ⟨rfl, rfl⟩
  exact hp' hp

theorem setEntry_of_table (hne : n ≠ t) (hn : ∀ i, d.entry n i = {}) (i j : Nat) (e : Pte) :
    (d.setEntry t i e).entry n j = {} := by
  rw [setEntry_entry, if_neg fun h => hne h.1]
  exact hn j

theorem walkFillOne_frameOf (hf : Fresh d n) (hn : ∀ i, d.entry n i = {})
    (hw : d.walk page = none) : (d.walkFillOne page n).2.frameOf page = none := by
  have hd : d.frameOf page = none := frameOf_eq_none_of_walk hw
  have hoff {t i : Nat} (h : (d.entry t i).present ≠ false) : n ≠ (d.entry t i).frame :=
    (hf.2 t i (by simpa using h)).symm
  unfold walkFillOne
  simp only
  generalize decide (tableIndex page 39 < kernelPml4Start) = u
  split_ifs with h4 h3 hl h2
  · apply frameOf_eq_none_of_walk
    rw [walk_eq (setEntry_self _ _ _) (setEntry_of_table hf.1 hn _ _ _) rfl]
    rfl
  · apply frameOf_eq_none_of_walk
    rw [walk_eq (setEntry_of_present _ h3 h4) (setEntry_self _ _ _)
      (setEntry_of_table (hoff h4) hn _ _ _), setEntry_root, if_neg h4]
    rfl
  · exact hd
  · have hwalk : (d.setEntry (d.entry (d.entry d.root (tableIndex page 39)).frame
        (tableIndex page 30)).frame (tableIndex page 21) (.table n u)).walk page =
          some (n, tableIndex page 12) := by
      rw [walk_eq (setEntry_of_present _ h2 h4) (setEntry_of_present _ h2 h3) (setEntry_self _ _ _),
        setEntry_root, if_neg h4, if_neg h3]
      rfl
    unfold frameOf leafAt
    rw [hwalk, Option.map_some, Option.bind_some, setEntry_of_table (hoff h3) hn]
    rfl
  · exact hd

theorem ensureLoop_frameOf (hp : FreshFrames pmm) (k : Nat) :
    ∀ d : PageTables, d.walk page = none → (d.ensureLoop pmm page k).2.frameOf page = none := by
  induction k with
  | zero => exact fun d hw => frameOf_eq_none_of_walk hw
  | succ k ih =>
    intro d hw
    unfold ensureLoop
    cases hn : pmm d with
    | none =>
      unfold PageTables.pmmAlloc
      rw [hn]
      exact frameOf_eq_none_of_walk hw
    | some n =>
      obtain ⟨d1, ha, hroot, he⟩ := pmmAlloc_some hn
      have hf := hp d n hn
      have hw1 : d1.walk page = none :=
        (walk_of_fresh hf hroot (fun t i hne => (he t i).trans (if_neg hne)) page).trans hw
      have hnone := walkFillOne_frameOf (hf.cleared hroot he)
        (fun i => (he n i).trans (if_pos rfl)) hw1
      rw [ha]
      simp only
      have hnone2 : (if (d1.walkFillOne page n).1 then (d1.walkFillOne page n).2
          else (d1.walkFillOne page n).2.pmmFree n).frameOf page = none := by
        split <;> exact hnone
      generalize (if (d1.walkFillOne page n).1 then (d1.walkFillOne page n).2
          else (d1.walkFillOne page n).2.pmmFree n) = d2 at hnone2
      by_cases h : (d2.walk page).isSome
      · rw [if_pos h]
        exact hnone2
      · rw [if_neg h]
        exact ih d2 (by simpa using h)

theorem vmmEnsureLeaf_frameOf (hp : FreshFrames pmm) (h : d.frameOf page = none) :
    (d.vmmEnsureLeaf pmm page).2.frameOf page = none := by
  unfold vmmEnsureLeaf
  split
  · exact h
  · next hw => exact ensureLoop_frameOf hp 16 d (by simpa using hw)

theorem populate_leaf (hp : FreshFrames pmm) (h : d.frameOf page = none)
    (he : (d.populate pmm page prot).2.leafAt page = some e) (hpres : e.present = true) :
    ∃ n, e = .leaf n prot := by
  -- a leaf that was not filled in here was not there
  have hgone {d' : PageTables} (h' : d'.frameOf page = none) (he : d'.leafAt page = some e) :
      ∃ n, e = .leaf n prot := by
    unfold frameOf at h'
    rw [he, Option.bind_some, if_pos hpres] at h'
    cases h'
  unfold populate at he
  cases hn : pmm d with
  | none =>
    unfold PageTables.pmmAlloc at he
    rw [hn] at he
    exact hgone h he
  | some n =>
    obtain ⟨d1, ha, hroot, hentry⟩ := pmmAlloc_some hn
    rw [ha] at he
    simp only at he
    have h1 : d1.frameOf page = none := by
      unfold frameOf
      rw [leafAt_of_fresh (hp d n hn) hroot (fun t i hne => (hentry t i).trans (if_neg hne)) page]
      exact h
    have h2 := vmmEnsureLeaf_frameOf hp h1
    generalize (d1.vmmEnsureLeaf pmm page).2 = d2 at he h2
    split at he
    · exact hgone h2 he
    · cases hw : d2.walk page with
      | none =>
        rw [hw] at he
        exact hgone h2 he
      | some x =>
        obtain ⟨t, i⟩ := x
        rw [hw] at he
        simp only at he
        have habsent : (d2.entry t i).present = false := by
          by_contra hpr
          rw [frameOf_eq_some hw (by simpa using hpr)] at h2
          cases h2
        rw [if_neg (by rw [habsent]; decide)] at he
        have hset (e' : Pte) : (d2.setEntry t i e').leafAt page = some e' := by
          unfold leafAt
          rw [(setEntry_kept habsent e').walk hw]
          exact congrArg some (setEntry_self t i e')
        split at he
        · exact ⟨_, (Option.some.inj ((hset _).symm.trans he)).symm⟩
        · exact ⟨_, (Option.some.inj ((hset _).symm.trans he)).symm⟩

theorem vmmPopulatePage_leaf (hp : FreshFrames pmm) {l : List (Slot Unit)}
    (h : d.frameOf page = none) {write : Bool}
    (he : (d.vmmPopulatePage pmm l page write).2.leafAt page = some e) (hpres : e.present = true) :
    ∃ n v i, e = .leaf n v.prot ∧ vadLookup l page = some (v, i) ∧ v.prot &&& pageNoAccess = 0 := by
  have hd : d.leafAt page ≠ some e := by
    intro hl
    unfold frameOf at h
    rw [hl, Option.bind_some, if_pos hpres] at h
    cases h
  unfold vmmPopulatePage at he
  cases hv : vadLookup l page with
  | none =>
    rw [hv] at he
    exact absurd he hd
  | some x =>
    obtain ⟨v, i⟩ := x
    rw [hv] at he
    simp only at he
    split at he
    · exact absurd he hd
    · next hno =>
      split at he
      · exact absurd he hd
      · have hpop (he : (d.populate pmm page v.prot).2.leafAt page = some e) :
            ∃ n v' i', e = .leaf n v'.prot ∧ some (v, i) = some (v', i') ∧
              v'.prot &&& pageNoAccess = 0 := by
          obtain ⟨n, hn⟩ := populate_leaf hp h he hpres
          exact ⟨n, v, i, hn, rfl, by simpa using hno⟩
        cases hl : d.leafAt page with
        | none =>
          rw [hl] at he
          exact hpop he
        | some e' =>
          rw [hl] at he
          simp only at he
          split at he
          · exact absurd he hd
          · exact hpop he

end PageTables

/-! ## Calls that succeed -/

theorem HwState.vmmProtectUser_pos {σ : Type} {m : Mmu σ} {s s' : HwState σ} {base size : Nat}
    {prot : Prot} {old : Option Prot}
    (hr : HwState.vmmProtectUser m s base size prot = .ok (.success, old, s')) :
    protLegal prot = true ∧ 0 < pageAlignUp size := by
  unfold HwState.vmmProtectUser at hr
  rcases HwState.protectAt_cases m prot s base size with ⟨st, hst, hr'⟩ | ⟨hp, hpos, -⟩
  · rw [hr' 1] at hr
    cases hr
    exact absurd rfl hst
  · exact ⟨hp, hpos⟩

namespace PageTables

/-! ## What a call installs -/

/-- Neither the entries that differ between the states nor those that `vmm_populate_page` fills in
later, whatever the tables and the memory are then, can be written to and executed. -/
structure InstallsNoWriteExec (s s' : HwState PageTables) (lo hi : Nat) : Prop where
  applied : ∀ t i, s'.mmu.entry t i ≠ s.mmu.entry t i → ¬ (s'.mmu.entry t i).WriteExec
  populated : ∀ pmm, FreshFrames pmm → ∀ (d : PageTables) (q : Nat) (write : Bool), InRange lo hi q →
    d.frameOf (q * pageSize) = none →
    ∀ e, (d.vmmPopulatePage pmm s'.as.slots (q * pageSize) write).2.leafAt (q * pageSize) = some e →
      ¬ e.WriteExec

section
variable {pmm : PageTables → Option Nat} {heap : PageTables → Bool} {src : Nat → UInt8}
  {s s' : HwState PageTables} {base size : Nat} {prot : Prot} {old : Option Prot}

theorem contained_writeExec (hp : protLegal prot = true) (hm : ¬ MixesWriteExec prot)
    (d : PageTables) (t i : Nat) : HwState.ContainedKeeps (mmu pmm heap src) prot fun x =>
      x.mmu.entry t i = d.entry t i ∨ ¬ (x.mmu.entry t i).WriteExec := by
  intro x lo n v j h hx hc
  rcases HwState.protectContained_cases (mmu pmm heap src) h hc prot with he | ⟨_, _, _, he⟩
  · rw [he]
    exact hx
  · rw [he]
    show (applyProt prot (n / pageSize) lo x.mmu).entry t i = d.entry t i ∨
      ¬ ((applyProt prot (n / pageSize) lo x.mmu).entry t i).WriteExec
    rcases applyProt_writeExec hp hm (n / pageSize) lo x.mmu t i with h | h
    · rw [h]
      exact hx
    · exact .inr h

theorem vmmProtectUser_applied (hv : VadInv s.as) (hm : ¬ MixesWriteExec prot)
    (hr : HwState.vmmProtectUser (mmu pmm heap src) s base size prot = .ok (.success, old, s'))
    (t i : Nat) : s'.mmu.entry t i = s.mmu.entry t i ∨ ¬ (s'.mmu.entry t i).WriteExec := by
  obtain ⟨r, hr', -, hP⟩ := HwState.vmmProtectUser_keeps prot
    (fun hp => contained_writeExec hp hm s.mmu t i) hv (.inl rfl) base size
  rw [hr] at hr'
  cases Outcome.ok.inj hr'
  exact hP

theorem vmmProtectUser_populated (hv : VadInv s.as) (hne : NoneEmpty s.as.slots)
    (hm : ¬ MixesWriteExec prot)
    (hr : HwState.vmmProtectUser (mmu pmm heap src) s base size prot = .ok (.success, old, s'))
    {pmm' : PageTables → Option Nat} (hf : FreshFrames pmm') {d : PageTables} {q : Nat} {write : Bool}
    (hq : InRange (pageAlignDown base) (pageAlignDown base + pageAlignUp size) q)
    (hd : d.frameOf (q * pageSize) = none) {e : Pte}
    (he : (d.vmmPopulatePage pmm' s'.as.slots (q * pageSize) write).2.leafAt (q * pageSize) = some e) :
    ¬ e.WriteExec := by
  intro hwx
  obtain ⟨n, v, i, rfl, hlook, hno⟩ := vmmPopulatePage_leaf hf hd he hwx.1
  have hprot := HwState.vmmProtectUser_protAt hv hne hr q
  rw [if_pos hq] at hprot
  unfold protAt at hprot
  rw [hlook] at hprot
  obtain rfl : v.prot = prot := Option.some.inj hprot
  exact hm ⟨hno, (leaf_writeExec_iff (HwState.vmmProtectUser_pos hr).1 n).1 hwx⟩

open Classical in
/-- Memory for tables that have no use for frame 5. -/
noncomputable def spareFrame (d : PageTables) : Option Nat := if Fresh d 5 then some 5 else none

theorem spareFrame_fresh : FreshFrames spareFrame := by
  intro d n hn
  unfold spareFrame at hn
  split at hn
  · next hf =>
    obtain rfl := Option.some.inj hn
    exact hf
  · cases hn

theorem flatTables_spare : spareFrame flatTables = some 5 := by
  refine if_pos ⟨by decide, fun t i _ => ?_⟩
  dsimp only [flatTables]
  split_ifs <;> decide

theorem mixes_of_populated (hv : VadInv s.as) (hne : NoneEmpty s.as.slots)
    (hr : HwState.vmmProtectUser (mmu pmm heap src) s base size prot = .ok (.success, old, s'))
    (h : InstallsNoWriteExec s s' (pageAlignDown base) (pageAlignDown base + pageAlignUp size)) :
    ¬ MixesWriteExec prot := by
  rintro ⟨hno, hmix⟩
  obtain ⟨hp, hpos⟩ := HwState.vmmProtectUser_pos hr
  have hmod := pageAlignDown_mod base
  have hq : InRange (pageAlignDown base) (pageAlignDown base + pageAlignUp size)
      (pageAlignDown base / 4096) := by
    unfold InRange
    omega
  have hprot := HwState.vmmProtectUser_protAt hv hne hr (pageAlignDown base / 4096)
  rw [if_pos hq] at hprot
  unfold protAt at hprot
  obtain ⟨⟨v, i⟩, hlook, rfl⟩ := Option.map_eq_some_iff.1 hprot
  have hnone : flatTables.frameOf (pageAlignDown base / 4096 * pageSize) = none := by
    unfold frameOf leafAt
    rw [flatTables_flat.walk]
    rfl
  obtain ⟨d1, f, hpop, hf, -⟩ := flatTables_flat.vmmPopulatePage spareFrame flatTables_spare
    (⟨v, i, hlook, hno⟩ : Granted s'.as.slots (pageAlignDown base / 4096 * pageSize))
  obtain ⟨e, hleaf, hpres⟩ := Option.bind_eq_some_iff.1 hf
  have hpres : e.present = true := by
    by_contra hnot
    rw [if_neg hnot] at hpres
    cases hpres
  have hleaf' : (flatTables.vmmPopulatePage spareFrame s'.as.slots
      (pageAlignDown base / 4096 * pageSize) false).2.leafAt (pageAlignDown base / 4096 * pageSize) =
        some e := by
    rw [hpop]
    exact hleaf
  obtain ⟨n, v', i', rfl, hlook', -⟩ := vmmPopulatePage_leaf spareFrame_fresh hnone hleaf' hpres
  rw [hlook] at hlook'
  cases hlook'
  exact h.populated spareFrame spareFrame_fresh flatTables _ false hq hnone _ hleaf'
    ((leaf_writeExec_iff hp n).2 hmix)

/-- A successful `vmm_protect_user` makes no page of the range writable and executable, at once or
later, exactly when its protection does not have a write bit beside an execute bit. -/
theorem vmmProtectUser_writeExec_iff (hv : VadInv s.as) (hne : NoneEmpty s.as.slots)
    (hr : HwState.vmmProtectUser (mmu pmm heap src) s base size prot = .ok (.success, old, s')) :
    InstallsNoWriteExec s s' (pageAlignDown base) (pageAlignDown base + pageAlignUp size) ↔
      ¬ MixesWriteExec prot := by
  constructor
  · exact mixes_of_populated hv hne hr
  · intro hm
    refine ⟨fun t i hch => ?_, fun pmm' hf d q write hq hd e he => ?_⟩
    · exact (vmmProtectUser_applied hv hm hr t i).resolve_left hch
    · exact vmmProtectUser_populated hv hne hm hr hf hq hd he

end

/-- One of two pages is made read only. -/
theorem vmmProtectUser_writeExec_readOnly :
    ∃ old s', HwState.vmmProtectUser (mmu (fun _ => none) (fun _ => true) fun _ => 0)
        ⟨twoPages, flatTables⟩ 0x10000 0x1000 pageReadOnly = .ok (.success, old, s') ∧
      InstallsNoWriteExec ⟨twoPages, flatTables⟩ s' (pageAlignDown 0x10000)
        (pageAlignDown 0x10000 + pageAlignUp 0x1000) := by
  have hcall : ∃ old s', HwState.vmmProtectUser (mmu (fun _ => none) (fun _ => true) fun _ => 0)
      ⟨twoPages, flatTables⟩ 0x10000 0x1000 pageReadOnly = .ok (.success, old, s') := ⟨_, _, rfl⟩
  obtain ⟨old, s', hr⟩ := hcall
  refine ⟨old, s', hr, ?_⟩
  exact (vmmProtectUser_writeExec_iff twoPages_inv.1 twoPages_inv.2 hr).2 (by decide)

/-- A new address space with one page, which has been read. -/
def onePage : HwState PageTables :=
  let s := (newAspace.vmmAllocUser freshMmu 0x10000 0x1000 pageReadWrite memCommit).2.2
  { s with mmu := (s.mmu.vmmPopulatePage (fun d => some (d.allocs + 2)) s.as.slots 0x10000 false).2 }

/-- `PAGE_READWRITE | PAGE_EXECUTE` is not refused. -/
theorem vmmProtectUser_makes_writeExec :
    ∃ old s', HwState.vmmProtectUser freshMmu onePage 0x10000 0x1000
        (pageReadWrite ||| pageExecute) = .ok (.success, old, s') ∧
      (onePage.mmu.leafAt 0x10000).map (fun e => (e.present, e.write, e.noExecute)) =
        some (true, true, true) ∧
      (s'.mmu.leafAt 0x10000).map (fun e => (e.present, e.write, e.noExecute)) =
        some (true, true, false) ∧
      ¬ InstallsNoWriteExec onePage s' 0x10000 0x11000 := by
  refine ⟨_, _, rfl, by decide +kernel, by decide +kernel, fun h => ?_⟩
  exact h.applied 4 16 (by decide +kernel) (by decide +kernel)

end PageTables

end Aegis
