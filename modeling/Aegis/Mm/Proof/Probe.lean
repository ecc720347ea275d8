import Aegis.Mm.Proof.PageTable

/-!
# The probe and the pages

`vmm_probe_user` and `vmm_populate_page` both look at the protection of the VAD of a page, the probe
for the bits that grant the access and `vmm_populate_page` for `PAGE_NOACCESS` too. A protection can
have both (`vmmProbeUser_agrees_iff`). The page tables do not matter: a page that is populated is
there when it is looked up again (`vmmPopulatePage_spec`).
-/

namespace Aegis

variable {n p va : Nat} {write : Bool} {l : List (Slot Unit)}

namespace PageTables

section
variable (pmm : PageTables → Option Nat) {d : PageTables} {l : List (Slot Unit)} {page : Nat}
variable {i t : Nat}

/-! ## One page -/

theorem ensureLoop_spec (k : Nat) : ∀ d : PageTables, (ensureLoop pmm page k d).1 = .noMemory ∨
      (ensureLoop pmm page k d).1 = .success ∧ ((ensureLoop pmm page k d).2.walk page).isSome := by
  induction k with
  | zero => exact fun _ => .inl rfl
  | succ k ih =>
    intro d
    unfold ensureLoop
    cases d.pmmAlloc pmm with
    | mk n d1 =>
      cases n with
      | none => exact .inl rfl
      | some n =>
        simp only
        generalize (if (d1.walkFillOne page n).1 then (d1.walkFillOne page n).2
          else (d1.walkFillOne page n).2.pmmFree n) = d2
        by_cases h : (d2.walk page).isSome
        · rw [if_pos h]
          exact .inr ⟨rfl, h⟩
        · rw [if_neg h]
          exact ih d2

theorem vmmEnsureLeaf_spec (d : PageTables) (page : Nat) :
    (d.vmmEnsureLeaf pmm page).1 = .noMemory ∨
      (d.vmmEnsureLeaf pmm page).1 = .success ∧ ((d.vmmEnsureLeaf pmm page).2.walk page).isSome := by
  unfold vmmEnsureLeaf
  split
  · next h => exact .inr ⟨rfl, h⟩
  · exact ensureLoop_spec pmm 16 d

theorem frameOf_eq_some (hw : d.walk page = some (t, i)) (hp : (d.entry t i).present = true) :
    d.frameOf page = some (d.entry t i).frame := by
  unfold frameOf leafAt
  rw [hw]
  exact if_pos hp

theorem frameOf_setEntry {e : Pte} (hw : d.walk page = some (t, i))
    (hp : (d.entry t i).present = false) (he : e.present = true) :
    (d.setEntry t i e).frameOf page = some e.frame := by
  have h := frameOf_eq_some ((setEntry_kept hp e).walk hw) (by rw [setEntry_self]; exact he)
  rw [setEntry_self] at h
  exact h

theorem populate_spec (d : PageTables) (page : Nat) (prot : Prot) :
    (d.populate pmm page prot).1 = .noMemory ∨ (d.populate pmm page prot).1 = .success ∧
        ((d.populate pmm page prot).2.frameOf page).isSome := by
  unfold populate
  cases d.pmmAlloc pmm with
  | mk n d1 =>
    cases n with
    | none => exact .inl rfl
    | some n =>
      simp only
      rcases vmmEnsureLeaf_spec pmm d1 page with h | ⟨h, hw⟩
      · rw [h, if_pos (by decide)]
        exact .inl rfl
      · rw [h, if_neg (by decide)]
        generalize (d1.vmmEnsureLeaf pmm page).2 = d2 at hw
        obtain ⟨⟨t, i⟩, hx⟩ := Option.isSome_iff_exists.1 hw
        rw [hx]
        simp only
        refine .inr ?_
        cases hp : (d2.entry t i).present with
        | true =>
          refine ⟨rfl, ?_⟩
          show (d2.frameOf page).isSome
          rw [frameOf_eq_some hx hp]
          rfl
        | false =>
          simp only [Bool.false_eq_true, if_false]
          split
          · refine ⟨rfl, ?_⟩
            show ((d2.setEntry t i (.leaf (d2.entry t i).frame prot)).frameOf page).isSome
            rw [frameOf_setEntry hx hp rfl]
            rfl
          · refine ⟨rfl, ?_⟩
            rw [frameOf_setEntry hx hp rfl]
            rfl

theorem vmmPopulatePage_spec {v : Slot Unit} (hv : vadLookup l page = some (v, i))
    (hno : v.prot &&& pageNoAccess = 0) (d : PageTables) :
    (d.vmmPopulatePage pmm l page false).1 = .noMemory ∨
      (d.vmmPopulatePage pmm l page false).1 = .success ∧
        ((d.vmmPopulatePage pmm l page false).2.frameOf page).isSome := by
  unfold vmmPopulatePage
  rw [hv]
  simp only [hno, ne_eq, not_true_eq_false, if_false, Bool.false_eq_true, false_and]
  cases hl : d.leafAt page with
  | none => exact populate_spec pmm d page v.prot
  | some e =>
    simp only
    split
    · next hp =>
      refine .inr ⟨rfl, ?_⟩
      unfold frameOf
      rw [hl, Option.bind_some, if_pos hp]
      rfl
    · exact populate_spec pmm d page v.prot

end

end PageTables

/-! ## The pages of a range -/

/-- `p` is a page that `n` bytes from `va` touch. -/
def PageOf (va n p : Nat) : Prop := p % 4096 = 0 ∧ pageAlignDown va ≤ p ∧ p < va + n

/-- `vmm_populate_page` lets a read of the page in. -/
def Granted (l : List (Slot Unit)) (page : Nat) : Prop :=
  ∃ v i, vadLookup l page = some (v, i) ∧ v.prot &&& pageNoAccess = 0

/-- What a round of the loops over a range does to `va` and `n`. -/
def chunkOf (va n : Nat) : Nat := min n (pageSize - va % pageSize)

theorem chunkOf_le (va n : Nat) : chunkOf va n ≤ n := Nat.min_le_left ..

theorem chunkOf_pos (va : Nat) (hn : 0 < n) : 0 < chunkOf va n := by
  unfold chunkOf pageSize
  omega

theorem pageOf_first (hva : va + n < 2 ^ 64) (hn : 0 < n) : PageOf va n (pageAlignDown va) := by
  refine ⟨pageAlignDown_mod va, Nat.le_refl _, ?_⟩
  rw [pageAlignDown_of_lt (by omega)]
  omega

theorem pageOf_of_next (hva : va + n < 2 ^ 64)
    (h : PageOf (va + chunkOf va n) (n - chunkOf va n) p) : PageOf va n p := by
  obtain ⟨hp, hlo, hhi⟩ := h
  have hle := chunkOf_le va n
  have hdown : pageAlignDown va = va / 4096 * 4096 := pageAlignDown_of_lt (by omega)
  rw [pageAlignDown_of_lt (by omega)] at hlo
  exact ⟨hp, by omega, by omega⟩

theorem pageOf_next (hva : va + n < 2 ^ 64) (h : PageOf va n p) (hne : p ≠ pageAlignDown va) :
    0 < n - chunkOf va n ∧ PageOf (va + chunkOf va n) (n - chunkOf va n) p := by
  obtain ⟨hp, hlo, hhi⟩ := h
  have hle := chunkOf_le va n
  have hchunk : chunkOf va n = min n (4096 - va % 4096) := rfl
  have hdown : pageAlignDown va = va / 4096 * 4096 := pageAlignDown_of_lt (by omega)
  refine ⟨by omega, hp, ?_, by omega⟩
  rw [pageAlignDown_of_lt (by omega)]
  omega

/-! ## What the probe says -/

theorem probeLoop_true {stop : Nat} (hstop : stop < 2 ^ 63) (k : Nat) :
    ∀ (p : Nat), probeLoop l write stop k p = true → ∀ j, j < k →
      p + j * 4096 < stop → ∃ v i, vadLookup l (p + j * 4096) = some (v, i) := by
  induction k with
  | zero =>
    intro p _ j hj
    omega
  | succ k ih =>
    intro p h j hj hlt
    unfold probeLoop at h
    rw [if_pos (by omega)] at h
    cases hv : vadLookup l p with
    | none =>
      rw [hv] at h
      cases h
    | some x =>
      rw [hv] at h
      simp only at h
      split at h
      · cases j with
        | zero =>
          refine ⟨x.1, x.2, ?_⟩
          rw [Nat.zero_mul, Nat.add_zero]
          exact hv
        | succ j =>
          have hnext : u64 (p + pageSize) = p + 4096 := u64_of_lt (by unfold pageSize; omega)
          rw [hnext] at h
          have := ih (p + 4096) h j (by omega) (by omega)
          rw [show p + 4096 + j * 4096 = p + (j + 1) * 4096 by omega] at this
          exact this
      · cases h

theorem vmmProbeUser_bounds (h : vmmProbeUser l va n write = true) : va + n < 2 ^ 63 := by
  have htop := userCanonicalTop_eq
  have hmax : copyMax = 2 ^ 20 := by decide
  unfold vmmProbeUser at h
  split at h
  · cases h
  · omega

theorem vmmProbeUser_vad (h : vmmProbeUser l va n write = true) (hp : PageOf va n p) :
    ∃ v i, vadLookup l p = some (v, i) := by
  have hb := vmmProbeUser_bounds h
  obtain ⟨hmod, hlo, hhi⟩ := hp
  unfold vmmProbeUser at h
  split at h
  · cases h
  · rw [u64_of_lt (by omega)] at h
    have hdown := pageAlignDown_mod va
    have hva : va < pageAlignDown va + 4096 := by
      rw [pageAlignDown_of_lt (by omega)]
      omega
    have hj := probeLoop_true (by omega) _ _ h ((p - pageAlignDown va) / 4096)
      (by unfold pageSize; omega)
    rw [show pageAlignDown va + (p - pageAlignDown va) / 4096 * 4096 = p by omega] at hj
    exact hj hhi

/-! ## The loops over a range -/

namespace PageTables

variable {pmm : PageTables → Option Nat} {l : List (Slot Unit)}
variable {page : Nat} {d : PageTables}

/-- A loop that populates the pages of a range one after the other. `R k d va n S` says that with `k`
rounds left and `n` bytes to go it ends with a status in `S`. -/
structure PageLoop (pmm : PageTables → Option Nat) (l : List (Slot Unit))
    (R : Nat → PageTables → Nat → Nat → (Status → Prop) → Prop) : Prop where
  done : ∀ {k d va S}, S .success → R k d va 0 S
  fail : ∀ {k d va n S st d₁}, 0 < n →
    d.vmmPopulatePage pmm l (pageAlignDown va) false = (st, d₁) → st ≠ .success → S st →
    R (k + 1) d va n S
  next : ∀ {k d va n S d₁ f}, 0 < n →
    d.vmmPopulatePage pmm l (pageAlignDown va) false = (.success, d₁) →
    d₁.frameOf (pageAlignDown va) = some f →
    (∀ d₂ : PageTables, d₂.root = d₁.root → d₂.entry = d₁.entry →
      R k d₂ (u64 (va + chunkOf va n)) (n - chunkOf va n) S) →
    R (k + 1) d va n S

theorem writeLoop_pageLoop (pmm : PageTables → Option Nat) (l : List (Slot Unit)) :
    PageLoop pmm l fun k d va n S => ∀ src : List UInt8, src.length = n →
      ∃ st d', d.writeLoop pmm l k va src = .ok (st, d') ∧ S st where
  done {k d va S} hs src hn := by
    obtain rfl := List.eq_nil_of_length_eq_zero hn
    refine ⟨.success, d, ?_, hs⟩
    rw [writeLoop]
  fail {k d va n S st d1} hn hpop hst hs src hlen := by
    cases src with
    | nil => exact absurd hlen (Nat.ne_of_lt hn)
    | cons b bs =>
      refine ⟨st, d1, ?_, hs⟩
      rw [writeLoop, hpop]
      exact if_pos ((ntSuccess_eq_false st).2 hst)
  next {k d va n S d1 f} hn hpop hf hnext src hlen := by
    cases src with
    | nil => exact absurd hlen (Nat.ne_of_lt hn)
    | cons b bs =>
      rw [writeLoop, hpop]
      simp only [(ntSuccess_iff .success).2 rfl, Bool.true_eq_false, if_false, hf]
      subst hlen
      have hpages := fun pages => hnext { d1 with page := pages } rfl rfl
      exact hpages _ _ List.length_drop

theorem readLoop_pageLoop (pmm : PageTables → Option Nat) (l : List (Slot Unit)) :
    PageLoop pmm l fun k d va n S =>
      ∃ st bs d', d.readLoop pmm l k va n = .ok (st, bs, d') ∧ S st where
  done {k d va S} hs := by
    refine ⟨.success, [], d, ?_, hs⟩
    rw [readLoop]
  fail {k d va n S st d1} hn hpop hst hs := by
    cases n with
    | zero => exact absurd hn (Nat.lt_irrefl 0)
    | succ n =>
      refine ⟨st, [], d1, ?_, hs⟩
      rw [readLoop, hpop]
      exact if_pos ((ntSuccess_eq_false st).2 hst)
  next {k d va n S d1 f} hn hpop hf hnext := by
    cases n with
    | zero => exact absurd hn (Nat.lt_irrefl 0)
    | succ n =>
      obtain ⟨st, bs, d', hrest, hs⟩ := hnext d1 rfl rfl
      rw [readLoop, hpop]
      simp only [(ntSuccess_iff .success).2 rfl, Bool.true_eq_false, if_false, hf]
      rw [show min (n + 1) (pageSize - va % pageSize) = chunkOf va (n + 1) from rfl, hrest]
      exact ⟨st, _, d', rfl, hs⟩

variable {R : Nat → PageTables → Nat → Nat → (Status → Prop) → Prop}

theorem PageLoop.granted (hR : PageLoop pmm l R) (k : Nat) : ∀ (d : PageTables) (va n : Nat),
    n ≤ k → va + n < 2 ^ 64 → (∀ p, PageOf va n p → Granted l p) →
      R k d va n fun st => st = .success ∨ st = .noMemory := by
  induction k with
  | zero =>
    intro d va n hn _ _
    obtain rfl := Nat.le_zero.1 hn
    exact hR.done (.inl rfl)
  | succ k ih =>
    intro d va n hn hva hg
    rcases Nat.eq_zero_or_pos n with rfl | hpos
    · exact hR.done (.inl rfl)
    · obtain ⟨v, i, hv, hno⟩ := hg _ (pageOf_first hva hpos)
      rcases vmmPopulatePage_spec pmm hv hno d with hm | ⟨hok, hf⟩
      · exact hR.fail hpos (Prod.ext hm rfl) nofun (.inr rfl)
      · obtain ⟨f, hf⟩ := Option.isSome_iff_exists.1 hf
        apply hR.next hpos (Prod.ext hok rfl) hf
        intro d2 _ _
        have hc := chunkOf_pos va hpos
        have hle := chunkOf_le va n
        rw [u64_of_lt (by omega)]
        exact ih d2 _ _ (by omega) (by omega) fun p hp => hg p (pageOf_of_next hva hp)

/-! ## Tables that are there -/

/-- Every page has a leaf, in table 4. -/
def Flat (d : PageTables) : Prop :=
  d.root = 1 ∧ ∀ i, d.entry 1 i = .table 2 true ∧ d.entry 2 i = .table 3 true ∧
    d.entry 3 i = .table 4 true

theorem Flat.walk (h : Flat d) (va : Nat) : d.walk va = some (4, tableIndex va 12) := by
  obtain ⟨hroot, he⟩ := h
  simp [PageTables.walk, hroot, he, Pte.table]

theorem Flat.setEntry (h : Flat d) {t : Nat} (ht : 3 < t) (i : Nat) (e : Pte) :
    Flat (d.setEntry t i e) := by
  refine ⟨h.1, fun j => ?_⟩
  simp only [setEntry_entry]
  rw [if_neg (by omega), if_neg (by omega), if_neg (by omega)]
  exact h.2 j

theorem Flat.pmmAlloc (h : Flat d) (hp : pmm d = some 5) :
    ∃ d1 : PageTables, d.pmmAlloc pmm = (some 5, d1) ∧ Flat d1 := by
  unfold PageTables.pmmAlloc
  rw [hp]
  refine ⟨_, rfl, h.1, fun i => ?_⟩
  simpa using h.2 i

theorem Flat.populate (h : Flat d) (hp : pmm d = some 5) (page : Nat) (prot : Prot) :
    (d.populate pmm page prot).1 = .success ∧ Flat (d.populate pmm page prot).2 := by
  obtain ⟨d1, ha, h1⟩ := h.pmmAlloc hp
  unfold PageTables.populate
  rw [ha]
  simp only
  have he : d1.vmmEnsureLeaf pmm page = (.success, d1) := by
    unfold vmmEnsureLeaf
    rw [h1.walk]
    rfl
  rw [he]
  simp only [(ntSuccess_iff .success).2 rfl, Bool.true_eq_false, if_false, h1.walk]
  split_ifs
  · exact ⟨rfl, h1⟩
  · refine ⟨rfl, ?_⟩
    have hset := h1.setEntry (t := 4) (by decide) (tableIndex page 12)
    exact hset (.leaf (d1.entry 4 (tableIndex page 12)).frame prot)
  · exact ⟨rfl, h1.setEntry (t := 4) (by decide) _ _⟩

theorem Flat.vmmPopulatePage (h : Flat d) (pmm : PageTables → Option Nat) (hp : pmm d = some 5)
    (hg : Granted l page) : ∃ (d1 : PageTables) (f : Nat),
      d.vmmPopulatePage pmm l page false = (.success, d1) ∧ d1.frameOf page = some f ∧ Flat d1 := by
  obtain ⟨v, i, hv, hno⟩ := hg
  have hflat : (d.vmmPopulatePage pmm l page false).1 = .success ∧
      Flat (d.vmmPopulatePage pmm l page false).2 := by
    unfold PageTables.vmmPopulatePage
    rw [hv]
    simp only [hno, ne_eq, not_true_eq_false, if_false, Bool.false_eq_true, false_and]
    cases d.leafAt page with
    | none => exact h.populate hp page v.prot
    | some e =>
      simp only
      split
      · exact ⟨rfl, h⟩
      · exact h.populate hp page v.prot
  rcases vmmPopulatePage_spec pmm hv hno d with hm | ⟨hok, hf⟩
  · rw [hflat.1] at hm
    cases hm
  · obtain ⟨f, hf⟩ := Option.isSome_iff_exists.1 hf
    exact ⟨_, f, Prod.ext hok rfl, hf, hflat.2⟩

theorem PageLoop.denied (hR : PageLoop (fun _ => some 5) l R) (k : Nat) :
    ∀ (d : PageTables) (va n : Nat), 0 < n → n ≤ k → va + n < 2 ^ 64 → Flat d →
      (∀ p, PageOf va n p → ∃ v i, vadLookup l p = some (v, i)) →
      (∃ p, PageOf va n p ∧ ¬ Granted l p) → R k d va n (· = .accessViolation) := by
  induction k with
  | zero =>
    intro d va n hpos hn
    omega
  | succ k ih =>
    intro d va n hpos hn hva hflat hvads ⟨p, hp, hng⟩
    by_cases hfirst : Granted l (pageAlignDown va)
    · obtain ⟨d1, f, hpop, hf, hflat1⟩ := hflat.vmmPopulatePage (fun _ => some 5) rfl hfirst
      apply hR.next hpos hpop hf
      intro d2 hroot hentry
      have hc := chunkOf_pos va hpos
      have hle := chunkOf_le va n
      have hne : p ≠ pageAlignDown va := fun he => hng (he ▸ hfirst)
      obtain ⟨hrest, hp'⟩ := pageOf_next hva hp hne
      rw [u64_of_lt (by omega)]
      refine ih d2 _ _ hrest (by omega) (by omega) ?_ ?_ ⟨p, hp', hng⟩
      · unfold Flat
        rw [hroot, hentry]
        exact hflat1
      · exact fun q hq => hvads q (pageOf_of_next hva hq)
    · obtain ⟨v, i, hv⟩ := hvads _ (pageOf_first hva hpos)
      have hno : v.prot &&& pageNoAccess ≠ 0 := fun h => hfirst ⟨v, i, hv, h⟩
      have hpop : d.vmmPopulatePage (fun _ => some 5) l (pageAlignDown va) false =
          (.accessViolation, d) := by
        rw [vmmPopulatePage, hv]
        exact if_pos hno
      exact hR.fail hpos hpop nofun rfl

/-! ## The probe against the pages -/

/-- Only memory can be short. -/
def OnlyMemory (st : Status) : Prop := st = .success ∨ st = .noMemory

/-- Whatever the state of the tables and of the memory, `vmm_read_aspace` or `vmm_write_aspace` of the
range ends, and fails only for want of memory. -/
def AccessHolds (l : List (Slot Unit)) (va n : Nat) (write : Bool) : Prop :=
  ∀ (pmm : PageTables → Option Nat) (d : PageTables),
    if write then ∀ src : List UInt8, src.length = n →
      ∃ st d', d.vmmWriteAspace pmm l va src = .ok (st, d') ∧ OnlyMemory st
    else ∃ st bs d', d.vmmReadAspace pmm l va n = .ok (st, bs, d') ∧ OnlyMemory st

/-- No page of the range belongs to a VAD with `PAGE_NOACCESS`, whatever other bits it has. -/
def NoneHidden (l : List (Slot Unit)) (va n : Nat) : Prop :=
  ∀ p, PageOf va n p → ∀ v i, vadLookup l p = some (v, i) → v.prot &&& pageNoAccess = 0

variable {va n : Nat} {write : Bool}

theorem vmmWriteAspace_eq (d : PageTables) {src : List UInt8} (hlen : src.length = n) (hn : 0 < n) :
    d.vmmWriteAspace pmm l va src = d.writeLoop pmm l n va src := by
  subst hlen
  exact if_neg (List.ne_nil_of_length_pos hn)

theorem vmmReadAspace_eq (d : PageTables) (hn : 0 < n) :
    d.vmmReadAspace pmm l va n = d.readLoop pmm l n va n := if_neg (Nat.ne_of_gt hn)

theorem accessHolds_pos (h : AccessHolds l va n write) : 0 < n := by
  apply Nat.pos_of_ne_zero
  rintro rfl
  have hd := h (fun _ => none) ⟨0, fun _ _ => {}, fun _ _ => 0, [], [], 0⟩
  cases write with
  | false =>
    obtain ⟨st, bs, d', he, hst⟩ := hd
    cases he
    rcases hst with hst | hst <;> cases hst
  | true =>
    obtain ⟨st, d', he, hst⟩ := hd [] rfl
    cases he
    rcases hst with hst | hst <;> cases hst

theorem accessHolds_of_granted (hva : va + n < 2 ^ 64) (hn : 0 < n)
    (hg : ∀ p, PageOf va n p → Granted l p) : AccessHolds l va n write := by
  intro pmm d
  cases write with
  | false =>
    rw [vmmReadAspace_eq d hn]
    exact (readLoop_pageLoop pmm l).granted n d va n (Nat.le_refl n) hva hg
  | true =>
    intro src hlen
    rw [vmmWriteAspace_eq d hlen hn]
    exact (writeLoop_pageLoop pmm l).granted n d va n (Nat.le_refl n) hva hg src hlen

/-- Tables that have a leaf for every page and nothing else. -/
def flatTables : PageTables where
  root := 1
  entry t _ := if t = 1 then .table 2 true else if t = 2 then .table 3 true
    else if t = 3 then .table 4 true else {}
  page _ _ := 0
  taken := []
  freed := []
  allocs := 0

theorem flatTables_flat : Flat flatTables := ⟨rfl, fun _ => ⟨rfl, rfl, rfl⟩⟩

theorem noneHidden_of_accessHolds (hva : va + n < 2 ^ 64)
    (hvads : ∀ p, PageOf va n p → ∃ v i, vadLookup l p = some (v, i))
    (h : AccessHolds l va n write) : NoneHidden l va n := by
  intro p hp v i hv
  have hn := accessHolds_pos h
  by_contra hno
  have hng : ¬ Granted l p := by
    rintro ⟨v', i', hv', hno'⟩
    rw [hv] at hv'
    cases hv'
    exact hno hno'
  have hd := h (fun _ => some 5) flatTables
  cases write with
  | false =>
    obtain ⟨st, bs, d', he, hst⟩ := (readLoop_pageLoop (fun _ => some 5) l).denied n flatTables va n hn
      (Nat.le_refl n) hva flatTables_flat hvads ⟨p, hp, hng⟩
    rw [if_neg Bool.false_ne_true, vmmReadAspace_eq _ hn, he] at hd
    obtain ⟨_, _, _, heq, hok⟩ := hd
    cases heq
    subst hst
    rcases hok with hok | hok <;> cases hok
  | true =>
    have hlen : (List.replicate n (0 : UInt8)).length = n := List.length_replicate
    obtain ⟨st, d', he, hst⟩ := (writeLoop_pageLoop (fun _ => some 5) l).denied n flatTables va n hn
      (Nat.le_refl n) hva flatTables_flat hvads ⟨p, hp, hng⟩ _ hlen
    obtain ⟨_, _, heq, hok⟩ := hd _ hlen
    rw [vmmWriteAspace_eq _ hlen hn, he] at heq
    cases heq
    subst hst
    rcases hok with hok | hok <;> cases hok

/-- The probe grants what can then be accessed exactly when no page of the range is `PAGE_NOACCESS`
beside other bits; `copyout` does not stop half way then. -/
theorem vmmProbeUser_agrees_iff (h : vmmProbeUser l va n write = true) :
    (AccessHolds l va n write ↔ 0 < n ∧ NoneHidden l va n) ∧
    (write = true → NoneHidden l va n → ∀ (pmm : PageTables → Option Nat) (d : PageTables)
      (src : List UInt8), src.length = n →
        ∃ st d', d.copyout pmm l va src = .ok (st, d') ∧ OnlyMemory st) := by
  have hva : va + n < 2 ^ 64 := Nat.lt_trans (vmmProbeUser_bounds h) (by decide)
  have hvads : ∀ p, PageOf va n p → ∃ v i, vadLookup l p = some (v, i) :=
    fun p hp => vmmProbeUser_vad h hp
  have hgranted (hh : NoneHidden l va n) : ∀ p, PageOf va n p → Granted l p := by
    intro p hp
    obtain ⟨v, i, hv⟩ := hvads p hp
    exact ⟨v, i, hv, hh p hp v i hv⟩
  refine ⟨⟨fun hf => ⟨accessHolds_pos hf, noneHidden_of_accessHolds hva hvads hf⟩, ?_⟩, ?_⟩
  · exact fun hc => accessHolds_of_granted hva hc.1 (hgranted hc.2)
  · intro hw hh pmm d src hlen
    subst hw hlen
    unfold copyout
    split
    · exact ⟨.success, d, rfl, .inl rfl⟩
    · next hne =>
      split
      · next hmax =>
        exfalso
        unfold vmmProbeUser at h
        rw [if_pos (.inr (.inl hmax))] at h
        cases h
      · rw [if_neg (by rw [h]; decide)]
        have hfails : AccessHolds l va src.length true :=
          accessHolds_of_granted hva (List.length_pos_of_ne_nil hne) (hgranted hh)
        exact hfails pmm d src rfl

/-- A page that can be written and, behind it, one that a process got with
`PAGE_NOACCESS | PAGE_READWRITE`. -/
def mixedAspace : HwState PageTables :=
  let s := (newAspace.vmmAllocUser freshMmu 0x10000 0x1000 pageReadWrite memCommit).2.2
  (s.vmmAllocUser freshMmu 0x11000 0x1000 (pageNoAccess ||| pageReadWrite) memCommit).2.2

/-- A write within the first page is granted and succeeds. -/
theorem vmmProbeUser_agrees_page :
    vmmProbeUser mixedAspace.as.slots 0x10ff0 16 true = true ∧
    AccessHolds mixedAspace.as.slots 0x10ff0 16 true := by
  have hp : vmmProbeUser mixedAspace.as.slots 0x10ff0 16 true = true := by decide +kernel
  refine ⟨hp, (vmmProbeUser_agrees_iff hp).1.2 ⟨by decide, fun p h v i hv => ?_⟩⟩
  obtain rfl : p = 0x10000 := by
    obtain ⟨hmod, hlo, hhi⟩ := h
    have hdown : pageAlignDown 0x10ff0 = 0x10000 := by decide
    omega
  have hlook : (vadLookup mixedAspace.as.slots 0x10000).map (fun x => x.1.prot) =
      some pageReadWrite := by decide +kernel
  rw [hv] at hlook
  rw [show v.prot = pageReadWrite from Option.some.inj hlook]
  decide

/-- A write over both pages is granted, and stops after the first one. -/
theorem copyout_stops_half_way :
    vmmProbeUser mixedAspace.as.slots 0x10ff0 32 true = true ∧
    ¬ AccessHolds mixedAspace.as.slots 0x10ff0 32 true ∧
    (mixedAspace.mmu.copyout (fun d => some (d.allocs + 2)) mixedAspace.as.slots 0x10ff0
      (List.replicate 32 65)).get?.map (fun r => (r.1, (r.2.frameOf 0x10000).map fun f =>
        r.2.page f 0xff0)) = some (.accessViolation, some 65) := by
  refine ⟨by decide +kernel, fun h => ?_, by decide +kernel⟩
  have hw : (mixedAspace.mmu.vmmWriteAspace (fun d => some (d.allocs + 2)) mixedAspace.as.slots
      0x10ff0 (List.replicate 32 65)).get?.map (fun r => r.1) = some .accessViolation := by
    decide +kernel
  obtain ⟨st, d', he, hst⟩ := h (fun d => some (d.allocs + 2)) mixedAspace.mmu
    (List.replicate 32 65) rfl
  rw [he] at hw
  obtain rfl : st = .accessViolation := Option.some.inj hw
  rcases hst with hst | hst <;> cases hst

end PageTables

end Aegis
