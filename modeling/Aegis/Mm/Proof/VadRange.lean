import Aegis.Mm.Proof.Vad

/-!
# Ranges over several VADs

`vmm_protect_user` cuts a range that no single VAD contains into clips, and calls itself for each. A
clip is within one VAD, and it still is when the clips before it have been split off and joined: what
happens to the rest of the address space moves no boundary into it (`InOneVad`).
-/

namespace Aegis

open SwapList Apart

/-- The address is one of the VAD's. -/
def Vad.Has (v : Vad) (p : Nat) : Prop := v.start ≤ p ∧ p < v.stop

section
variable {α : Type} {l l' : List (Slot α)} {i j : Nat} {v u : Slot α} {lo hi base stop : Nat}
variable {cur k page : Nat} {m : Slot α} {as : Aspace α} {clips : List (Nat × Nat)}

/-- One VAD contains `[lo, hi)`. -/
def InOneVad (l : List (Slot α)) (lo hi : Nat) : Prop := ∃ v ∈ l, v.start ≤ lo ∧ hi ≤ v.stop

theorem InOneVad.perm (h : InOneVad l lo hi) (hp : l.Perm l') : InOneVad l' lo hi := by
  obtain ⟨v, hv, hin⟩ := h
  exact ⟨v, hp.mem_iff.1 hv, hin⟩

theorem vadContainsRange_isSome (h : InOneVad l lo hi) (hlt : lo < hi) :
    ∃ x, vadContainsRange l lo hi = some x := by
  unfold vadContainsRange
  rw [if_neg (not_le.2 hlt)]
  refine Option.ne_none_iff_exists'.1 fun hn => ?_
  obtain ⟨v, hv, hin⟩ := h
  exact absurd (findAt_none hn v hv) (by simp [hin])

theorem InOneVad.protectSplit (h : InOneVad l lo hi) (hi' : l[i]? = some v) (hv : v.Ok)
    (hpart : Part v.toVad base stop) (hlo : lo % 4096 = 0) (hhi : hi % 4096 = 0) (hlt : lo < hi)
    (hoff : hi ≤ base ∨ stop ≤ lo) (prot : Prot) (left mid right : α) :
    InOneVad (protectSplit l i v base stop prot ((base - v.start) / 4096) ((v.stop - stop) / 4096)
      left mid right) lo hi := by
  refine InOneVad.perm ?_ (protectSplit_perm hi' base stop prot _ _ left mid right).symm
  obtain ⟨w, hw, hin⟩ := h.perm (perm_eraseIdx hi')
  rcases List.mem_cons.1 hw with rfl | hw
  · have h1 := hv.start
    have h2 := hv.stop
    have h3 := hpart.base_aligned
    have h4 := hpart.stop_aligned
    rcases hoff with hoff | hoff
    · refine ⟨{ w with stop := base, shadow := left }, ?_, hin.1, hoff⟩
      have hn : (base - w.start) / 4096 ≠ 0 := by omega
      simp [rests, hn]
    · refine ⟨{ w with start := stop, shadow := right }, ?_, hoff, hin.2⟩
      have hn : (w.stop - stop) / 4096 ≠ 0 := by omega
      simp [rests, hn]
  · exact ⟨w, by simp [hw], hin⟩

/-! ## Neighbours -/

/-- `v` and `u` have become `m`. -/
structure Joined (v u m : Slot α) (l l' : List (Slot α)) : Prop where
  perm : ∃ rest, l.Perm (v :: u :: rest) ∧ l'.Perm (m :: rest)
  meet : v.stop = u.start
  prot : v.prot = u.prot
  start : m.start = v.start
  stop : m.stop = u.stop
  prot_eq : m.prot = v.prot

theorem joinVads_joined (h : mergePair l = some ((v, i), (u, j))) (x : α) :
    Joined v u { v with stop := u.stop, shadow := x } l
      (joinVads l { v with shadow := x } i u.stop j) := by
  obtain ⟨hi, hj, hij, hmeet, hprot, -⟩ := mergePair_some h
  obtain ⟨rest, hl, hl'⟩ := set_swapRemove_perm hij hi hj
  exact ⟨⟨rest, hl, hl' _⟩, hmeet, hprot, rfl, rfl, rfl⟩

theorem Joined.inv (hj : Joined v u m l l') (h : VadInv { as with slots := l }) :
    VadInv { as with slots := l' } := by
  obtain ⟨rest, hl, hl'⟩ := hj.perm
  exact h.join hl hl' hj.meet hj.start hj.stop

theorem Joined.within (hj : Joined v u m l l') (hok : ∀ v ∈ l, v.Ok) (h : InOneVad l lo hi) :
    InOneVad l' lo hi := by
  obtain ⟨rest, hl, hl'⟩ := hj.perm
  have hv := (hok v (hl.mem_iff.2 (by simp))).le
  have hu := (hok u (hl.mem_iff.2 (by simp))).le
  have h1 := hj.meet
  have h2 := hj.start
  have h3 := hj.stop
  obtain ⟨w, hw, hin⟩ := h.perm hl
  refine InOneVad.perm ?_ hl'.symm
  rcases List.mem_cons.1 hw with rfl | hw
  · exact ⟨m, List.mem_cons_self, by omega, by omega⟩
  · rcases List.mem_cons.1 hw with rfl | hw
    · exact ⟨m, List.mem_cons_self, by omega, by omega⟩
    · exact ⟨w, List.mem_cons_of_mem _ hw, hin⟩

/-! ## What a call finds -/

theorem range_of_page (hlo : lo % 4096 = 0) (hhi : hi % 4096 = 0) (hlt : lo < hi)
    (htop : hi ≤ userCanonicalTop + 1) :
    pageAlignDown lo = lo ∧ pageAlignUp (hi - lo) = hi - lo ∧ u64 (lo + (hi - lo)) = hi ∧
      hi - lo < 2 ^ 64 ∧ outsideUser lo (hi - lo) = false := by
  have htop' := userCanonicalTop_eq
  have hu : u64 (lo + (hi - lo)) = hi := by
    rw [u64_of_lt (by omega)]
    omega
  refine ⟨?_, ?_, hu, by omega, ?_⟩
  · rw [pageAlignDown_of_lt (by omega)]
    omega
  · rw [pageAlignUp_of_le (by omega)]
    omega
  · unfold outsideUser
    rw [hu, sub64_of_le (by omega) (by omega)]
    simp only [decide_eq_false_iff_not]
    omega

theorem freeSize_mod (size : Nat) : freeSize size % 4096 = 0 := by
  unfold freeSize
  split
  · exact pageAlignUp_mod size
  · rfl

theorem freeSize_lt (size : Nat) : freeSize size < 2 ^ 64 := by
  unfold freeSize
  split
  · exact pageAlignUp_lt size
  · decide

/-- `vmm_free_user` takes `[base, stop)` out of the VAD `v` at index `i`. -/
structure Freed (as : Aspace α) (base size : Nat) (v : Slot α) (i stop nLeft nMid nRight : Nat) :
    Prop where
  inside : outsideUser base size = false
  target : freeTarget as.slots base size = .ok (v, i, stop)
  left : nLeft = if size = 0 then 0 else pagesBetween v.start base
  mid : nMid = if size = 0 then pagesBetween v.start v.stop else u32 (size / pageSize)
  right : nRight = if size = 0 then 0 else pagesBetween stop v.stop
  pos : nMid ≠ 0
  room : as.slots.length + (if nLeft ≠ 0 ∧ nRight ≠ 0 then 1 else 0) ≤ maxVads

theorem freePlan_eq_ok {size nLeft nMid nRight : Nat} :
    freePlan as base size = .ok ⟨v, i, stop, nLeft, nMid, nRight⟩ ↔
      Freed as base size v i stop nLeft nMid nRight := by
  constructor
  · intro h
    unfold freePlan at h
    split at h
    · cases h
    · next hout =>
      split at h
      · cases h
      · next w j stop' ht =>
        simp only at h
        generalize hl : (if size = 0 then 0 else pagesBetween w.start base) = nl at h
        generalize hm : (if size = 0 then pagesBetween w.start w.stop else u32 (size / pageSize)) = nm
          at h
        generalize hr : (if size = 0 then 0 else pagesBetween stop' w.stop) = nr at h
        by_cases hpos : nm = 0
        · rw [if_pos hpos] at h
          cases h
        by_cases hroom : as.slots.length + (if nl ≠ 0 ∧ nr ≠ 0 then 1 else 0) > maxVads
        · rw [if_neg hpos, if_pos hroom] at h
          cases h
        rw [if_neg hpos, if_neg hroom] at h
        cases h
        exact ⟨by simpa using hout, ht, hl.symm, hm.symm, hr.symm, hpos, not_lt.1 hroom⟩
  · intro hf
    unfold freePlan
    rw [if_neg (by simp [hf.inside]), hf.target]
    simp only [← hf.left, ← hf.mid, ← hf.right]
    rw [if_neg hf.pos, if_neg (not_lt.2 hf.room)]

theorem freePlan_error {size : Nat} {st : Status} (h : freePlan as base size = .error st) :
    st ≠ .success := by
  unfold freePlan at h
  split at h
  · cases h
    decide
  · split at h
    · next ht =>
      cases h
      exact freeTarget_error ht
    · simp only at h
      split_ifs at h <;> (cases h; decide)

theorem allocPlan_eq_ok {size va : Nat} : allocPlan as base size = .ok va ↔
    size ≠ 0 ∧ pageAlignUp size / pageSize ≤ userCommitMax / pageSize ∧
      allocTarget as base (pageAlignUp size) = .ok va := by
  unfold allocPlan
  split_ifs with hz hbig
  · simp [hz]
  · exact iff_of_false nofun fun h => absurd h.2.1 (not_le.2 hbig)
  · exact ⟨fun h => ⟨hz, not_lt.1 hbig, h⟩, fun h => h.2.2⟩

theorem allocPlan_error {size : Nat} {st : Status} (h : allocPlan as base size = .error st) :
    st ≠ .success := by
  unfold allocPlan at h
  split_ifs at h
  · cases h
    decide
  · cases h
    decide
  · exact allocTarget_error h

/-- The contained path of `vmm_protect_user` for `[base, base + size)` in the VAD `v` at index
`i`. -/
structure Protected (as : Aspace α) (base size : Nat) (v : Slot α) (i nLeft nRight : Nat) : Prop
    extends Contained as.slots base size v i where
  left : nLeft = pagesBetween v.start base
  right : nRight = pagesBetween (u64 (base + size)) v.stop
  room : as.slots.length + ((if nLeft ≠ 0 then 1 else 0) + (if nRight ≠ 0 then 1 else 0)) ≤ maxVads

section
variable {as : Aspace α} {size nLeft nMid nRight : Nat}

theorem Freed.inv (hf : Freed as base size v i stop nLeft nMid nRight) (h : VadInv as)
    (hb : base % 4096 = 0) (hs : size % 4096 = 0) (hlt : size < 2 ^ 64) (left right : α) :
    VadInv { as with
      slots := carve as.slots i v base stop nLeft nRight left right
      committedPages := uncommit as.committedPages nMid } := by
  obtain ⟨hi, hpart, hl, hm, hr⟩ := h.freeParts hb hs hlt hf.inside hf.target
  have hroom := hf.room
  rw [hf.left, hl, hf.right, hr] at hroom
  rw [hf.left, hl, hf.right, hr, hf.mid, hm]
  exact h.carve hi hpart left right hroom

section
variable (hp : Protected as base size v i nLeft nRight) (h : VadInv as)
include hp h

theorem Protected.part :
    as.slots[i]? = some v ∧ Part v.toVad base (base + size) ∧ u64 (base + size) = base + size ∧
      nLeft = (base - v.start) / 4096 ∧ nRight = (v.stop - (base + size)) / 4096 := by
  obtain ⟨hi, hpart, hu, hl, -, hr⟩ := h.protectParts hp.toContained
  refine ⟨hi, hpart, hu, hp.left.trans hl, ?_⟩
  rw [hp.right, hu, hr]

theorem Protected.inv (prot : Prot) (left mid right : α) :
    VadInv { as with
      slots := protectSplit as.slots i v base (base + size) prot nLeft nRight left mid right } := by
  obtain ⟨hi, hpart, -, rfl, rfl⟩ := hp.part h
  exact h.protectSplit hi hpart prot left mid right hp.room

theorem Protected.whole (hz : (if nLeft ≠ 0 then 1 else 0) + (if nRight ≠ 0 then 1 else 0) = 0)
    (prot : Prot) (left right : α) :
    as.slots.set i { v with prot } =
      protectSplit as.slots i v base (base + size) prot nLeft nRight left v.shadow right := by
  obtain ⟨hi, hpart, -, rfl, rfl⟩ := hp.part h
  have hok := h.ok v (List.mem_of_getElem? hi)
  have h1 := hok.start
  have h2 := hok.stop
  have h3 := hpart.base_aligned
  have h4 := hpart.stop_aligned
  have h5 := hpart.start_le
  have h6 := hpart.le_stop
  have hleft : (base - v.start) / 4096 = 0 := by
    by_contra hne
    simp [hne] at hz
  have hright : (v.stop - (base + size)) / 4096 = 0 := by
    by_contra hne
    simp [hne] at hz
  have hstart : base = v.start := by omega
  have hstop : base + size = v.stop := by omega
  rw [hleft, hright, hstop, hstart]
  rfl

end

end

/-! ## Empty VADs

Only a size that wraps makes one: what is left of a VAD, joined or added otherwise has pages. -/

/-- Every VAD has a page. -/
def NoneEmpty (l : List (Slot α)) : Prop := ∀ v ∈ l, v.start < v.stop

theorem Joined.noneEmpty (hj : Joined v u m l l') (h : NoneEmpty l) : NoneEmpty l' := by
  obtain ⟨rest, hl, hl'⟩ := hj.perm
  intro x hx
  rcases List.mem_cons.1 (hl'.mem_iff.1 hx) with rfl | hx
  · have h1 := h v (hl.mem_iff.2 (by simp))
    have h2 := h u (hl.mem_iff.2 (by simp))
    rw [hj.start, hj.stop]
    exact h1.trans (hj.meet ▸ h2)
  · exact h x (hl.mem_iff.2 (by simp [hx]))

theorem noneEmpty_rests {left right : α} {x : Slot α}
    (hx : x ∈ rests v base stop ((base - v.start) / 4096) ((v.stop - stop) / 4096) left right) :
    x.start < x.stop := by
  rcases mem_rests hx with ⟨hn, rfl⟩ | ⟨hn, rfl⟩
  · show v.start < base
    by_contra hle
    simp [Nat.sub_eq_zero_of_le (not_lt.1 hle)] at hn
  · show stop < v.stop
    by_contra hle
    simp [Nat.sub_eq_zero_of_le (not_lt.1 hle)] at hn

theorem NoneEmpty.eraseIdx (h : NoneEmpty l) (i : Nat) : NoneEmpty (l.eraseIdx i) :=
  fun x hx => h x (List.mem_of_mem_eraseIdx hx)

theorem NoneEmpty.carve (h : NoneEmpty l) (hi' : l[i]? = some v) (base stop : Nat)
    (left right : α) :
    NoneEmpty (carve l i v base stop ((base - v.start) / 4096) ((v.stop - stop) / 4096)
      left right) := by
  intro x hx
  rcases List.mem_append.1 ((carve_perm hi' ..).mem_iff.1 hx) with hx | hx
  · exact noneEmpty_rests hx
  · exact h.eraseIdx i x hx

theorem NoneEmpty.protectSplit (h : NoneEmpty l) (hi' : l[i]? = some v) (hlt : base < stop)
    (prot : Prot) (left mid right : α) :
    NoneEmpty (protectSplit l i v base stop prot ((base - v.start) / 4096)
      ((v.stop - stop) / 4096) left mid right) := by
  intro x hx
  rcases List.mem_append.1 ((protectSplit_perm hi' ..).mem_iff.1 hx) with hx | hx
  · rcases List.mem_cons.1 hx with rfl | hx
    · exact hlt
    · exact noneEmpty_rests hx
  · exact h.eraseIdx i x hx

theorem NoneEmpty.addVad {size va : Nat} (h : NoneEmpty as.slots)
    (ht : allocTarget as base (pageAlignUp size) = .ok va) (hz : size ≠ 0)
    (hle : size ≤ 2 ^ 64 - 4096) (prot : Prot) (type : Nat) (shadow : α) :
    NoneEmpty (as.addVad base va (pageAlignUp size) prot type shadow).slots := by
  obtain ⟨-, hout, -⟩ := allocTarget_ok ht
  have hu := (inside_user (pageAlignUp_lt size) hout).2.1
  have hup := pageAlignUp_of_le hle
  intro x hx
  rcases List.mem_append.1 hx with hx | hx
  · exact h x hx
  · rw [List.mem_singleton.1 hx]
    show va < u64 (va + pageAlignUp size)
    omega

/-! ## Clips -/

theorem vadLookup_some (h : vadLookup l page = some (v, i)) :
    l[i]? = some v ∧ v.start ≤ page ∧ page < v.stop := by
  obtain ⟨hp, hi⟩ := findAt_some h
  exact ⟨hi, of_decide_eq_true hp⟩

theorem vadLookup_none (h : vadLookup l page = none) (hv : v ∈ l) :
    ¬ (v.start ≤ page ∧ page < v.stop) := of_decide_eq_false (findAt_none h v hv)

/-- What holds of every clip of `[cur, stop)`. -/
structure Clip (l : List (Slot α)) (cur stop : Nat) (x : Nat × Nat) : Prop where
  aligned : x.1 % 4096 = 0 ∧ x.2 % 4096 = 0
  lower : cur ≤ x.1
  lt : x.1 < x.2
  upper : x.2 ≤ stop
  within : InOneVad l x.1 x.2

def Ordered (clips : List (Nat × Nat)) : Prop := clips.Pairwise fun x y => x.2 ≤ y.1

theorem Clip.rest (hlt : lo < hi) (hc : ∀ y ∈ clips, Clip l cur stop y) (ho : ∀ y ∈ clips, hi ≤ y.1)
    (hkeep : ∀ a b, a % 4096 = 0 → b % 4096 = 0 → a < b → (b ≤ lo ∨ lo + (hi - lo) ≤ a) →
      InOneVad l a b → InOneVad l' a b) : ∀ y ∈ clips, Clip l' hi stop y := by
  intro y hy
  have h := hc y hy
  have hoff := ho y hy
  exact ⟨h.aligned, hoff, h.lt, h.upper,
    hkeep _ _ h.aligned.1 h.aligned.2 h.lt (.inr (by omega)) h.within⟩

/-- The clips follow each other, and end where a VAD does or the range. -/
def ClipChain (l : List (Slot α)) (stop : Nat) : Nat → List (Nat × Nat) → Prop
  | cur, [] => stop ≤ cur
  | cur, x :: xs => x.1 = cur ∧ cur < x.2 ∧ (∃ v ∈ l, v.Has cur ∧ x.2 = min v.stop stop) ∧
    ClipChain l stop x.2 xs

theorem clipLoop_spec (l : List (Slot α)) (stop k cur : Nat) :
    (∀ clips, clipLoop l stop k cur = .ok clips → ClipChain l stop cur clips) ∧
      ∀ st, clipLoop l stop k cur = .error st → st ≠ .success := by
  induction k generalizing cur with
  | zero =>
    unfold clipLoop
    split
    · exact ⟨nofun, fun st h => by cases h; decide⟩
    · next hge => exact ⟨fun clips h => by cases h; exact not_lt.1 hge, nofun⟩
  | succ k ih =>
    unfold clipLoop
    split
    · cases hl : vadLookup l cur with
      | none => exact ⟨nofun, fun st h => by cases h; decide⟩
      | some x =>
        obtain ⟨v, i⟩ := x
        obtain ⟨hi, hhas⟩ := vadLookup_some hl
        have hmin : (if v.stop > stop then stop else v.stop) = min v.stop stop := by
          split <;> omega
        simp only [hmin]
        split
        · exact ⟨nofun, fun st h => by cases h; decide⟩
        · next hlt =>
          obtain ⟨hok, herr⟩ := ih (min v.stop stop)
          cases hrest : clipLoop l stop k (min v.stop stop) with
          | error st => exact ⟨nofun, fun st' h => by cases h; exact herr st hrest⟩
          | ok rest =>
            refine ⟨fun clips h => ?_, nofun⟩
            cases h
            exact ⟨rfl, not_le.1 hlt, ⟨v, List.mem_of_getElem? hi, hhas, rfl⟩, hok rest hrest⟩
    · next hge => exact ⟨fun clips h => by cases h; exact not_lt.1 hge, nofun⟩

theorem clipLoop_chain (h : clipLoop l stop k cur = .ok clips) : ClipChain l stop cur clips :=
  (clipLoop_spec l stop k cur).1 clips h

theorem clipLoop_error {st : Status} (h : clipLoop l stop k cur = .error st) : st ≠ .success :=
  (clipLoop_spec l stop k cur).2 st h

theorem ClipChain.ok (h : ClipChain l stop cur clips) (hok : ∀ v ∈ l, v.Ok) (hcur : cur % 4096 = 0)
    (hstop : stop % 4096 = 0) : (∀ x ∈ clips, Clip l cur stop x) ∧ Ordered clips := by
  induction clips generalizing cur with
  | nil => exact ⟨(fun _ hx => by cases hx), List.Pairwise.nil⟩
  | cons x clips ih =>
    obtain ⟨rfl, hlt, ⟨v, hv, hhas, he⟩, hrest⟩ := h
    have hval := (hok v hv).stop
    have hal : x.2 % 4096 = 0 := by omega
    obtain ⟨hclips, hord⟩ := ih hrest hal
    refine ⟨fun y hy => ?_, List.pairwise_cons.2 ⟨fun y hy => (hclips y hy).lower, hord⟩⟩
    rcases List.mem_cons.1 hy with rfl | hy
    · exact ⟨⟨hcur, hal⟩, le_rfl, hlt, by omega, v, hv, hhas.1, by omega⟩
    · have hc := hclips y hy
      exact ⟨hc.aligned, hlt.le.trans hc.lower, hc.lt, hc.upper, hc.within⟩

theorem ClipChain.rounded {base size : Nat} (hok : ∀ v ∈ l, v.Ok)
    (h : ClipChain l (pageAlignDown base + pageAlignUp size) (pageAlignDown base) clips) :
    (∀ x ∈ clips, Clip l (pageAlignDown base) (pageAlignDown base + pageAlignUp size) x) ∧
      Ordered clips := by
  have hmod := pageAlignDown_mod base
  have hmod' := pageAlignUp_mod size
  exact h.ok hok hmod (by omega)

theorem ClipChain.covers (h : ClipChain l stop cur clips) (p : Nat) :
    (∃ c ∈ clips, c.1 ≤ p ∧ p < c.2) ↔ cur ≤ p ∧ p < stop := by
  induction clips generalizing cur with
  | nil =>
    have hle : stop ≤ cur := h
    simp only [List.not_mem_nil, false_and, exists_false, false_iff]
    omega
  | cons x clips ih =>
    obtain ⟨rfl, hlt, ⟨v, -, -, he⟩, hrest⟩ := h
    rw [List.exists_mem_cons_iff, ih hrest]
    omega

/-! ## `vmm_protect_user` -/

section
variable {σ : Type} (slots : σ → List (Slot α)) {prot : Prot} {s : σ}
  (contained : σ → Nat → Slot α → Nat → Nat → Nat → Outcome (Status × Option Prot × σ))

/-- The ways through `vmm_protect_user`, here `call`: it is refused, or about one VAD, or about a run of
them. -/
def ProtectWays (call : Nat → σ → Nat → Nat → Outcome (Status × Option Prot × σ))
    (prot : Prot) (s : σ) (base size : Nat) : Prop :=
  (∃ st, st ≠ .success ∧ ∀ k, call (k + 1) s base size = .ok (st, none, s)) ∨
  protLegal prot = true ∧ 0 < pageAlignUp size ∧
    ((∃ v i, Contained (slots s) (pageAlignDown base) (pageAlignUp size) v i ∧
      ∀ k, call (k + 1) s base size = contained s i v (pageAlignDown base) (pageAlignUp size)
        (u64 (pageAlignDown base + pageAlignUp size))) ∨
    ∃ v n clips, outsideUser (pageAlignDown base) (pageAlignUp size) = false ∧
      vadRunCovers (slots s) (pageAlignDown base) (pageAlignDown base + pageAlignUp size) =
        some (v, n) ∧
      ClipChain (slots s) (pageAlignDown base + pageAlignUp size) (pageAlignDown base) clips ∧
      ∀ k, call (k + 1) s base size =
        (protectClips (call k) clips s).bind fun r => .ok (r.1, some v.prot, r.2))

theorem protectRange_ways (prot : Prot) (s : σ) (base size : Nat) :
    ProtectWays slots contained (protectRange slots contained prot) prot s base size := by
  by_cases hz : size = 0
  · exact .inl ⟨.invalidParameter, by decide, fun k => if_pos hz⟩
  cases hp : protLegal prot with
  | false => exact .inl ⟨.invalidPageProtection, by decide, fun k => by simp [protectRange, hz, hp]⟩
  | true =>
  cases hout : outsideUser (pageAlignDown base) (pageAlignUp size) with
  | true =>
    exact .inl ⟨.conflictingAddresses, by decide, fun k => by simp [protectRange, hz, hp, hout]⟩
  | false =>
  cases hc : vadContainsRange (slots s) (pageAlignDown base)
      (u64 (pageAlignDown base + pageAlignUp size)) with
  | some x =>
    have hcont : Contained (slots s) (pageAlignDown base) (pageAlignUp size) x.1 x.2 :=
      ⟨pageAlignDown_mod base, pageAlignUp_mod size, pageAlignUp_lt size, hout, hc⟩
    exact .inr ⟨hp, hcont.pos, .inl ⟨x.1, x.2, hcont, fun k => by
      simp [protectRange, hz, hp, hout, hc]⟩⟩
  | none =>
  cases hr : vadRunCovers (slots s) (pageAlignDown base)
      (u64 (pageAlignDown base + pageAlignUp size)) with
  | none =>
    exact .inl ⟨.conflictingAddresses, by decide, fun k => by
      simp [protectRange, hz, hp, hout, hc, hr]⟩
  | some x =>
  by_cases hn : x.2 < 2
  · exact .inl ⟨.conflictingAddresses, by decide, fun k => by
      simp [protectRange, hz, hp, hout, hc, hr, hn]⟩
  cases hcl : clipLoop (slots s) (u64 (pageAlignDown base + pageAlignUp size)) maxVads
      (pageAlignDown base) with
  | error st =>
    exact .inl ⟨st, clipLoop_error hcl, fun k => by
      simp [protectRange, hz, hp, hout, hc, hr, hn, hcl]⟩
  | ok clips =>
    have hu := (inside_user (pageAlignUp_lt size) hout).2.1
    have hpos : 0 < pageAlignUp size := by
      by_contra hle
      rw [vadRunCovers, if_pos (by omega)] at hr
      cases hr
    refine .inr ⟨hp, hpos, .inr ⟨x.1, x.2, clips, hout, hu ▸ hr, hu ▸ clipLoop_chain hcl, fun k => ?_⟩⟩
    simp [protectRange, hz, hp, hout, hc, hr, hn, hcl]
    rfl

theorem protectRange_clip (hok : ∀ v ∈ slots s, v.Ok) (hp : protLegal prot = true)
    (hlo : lo % 4096 = 0) (hhi : hi % 4096 = 0) (hlt : lo < hi) (hw : InOneVad (slots s) lo hi) :
    ∃ v i, Contained (slots s) lo (hi - lo) v i ∧
      ∀ k, protectRange slots contained prot (k + 1) s lo (hi - lo) =
        contained s i v lo (hi - lo) (u64 (lo + (hi - lo))) := by
  obtain ⟨w, hwm, hwin⟩ := hw
  have htop := (hok w hwm).top
  obtain ⟨hdown, hup, hu, hsize, hin⟩ := range_of_page hlo hhi hlt (hwin.2.trans htop)
  obtain ⟨⟨v, i⟩, hc⟩ := vadContainsRange_isSome ⟨w, hwm, hwin⟩ hlt
  rw [← hu] at hc
  refine ⟨v, i, ⟨hlo, by omega, hsize, hin, hc⟩, fun k => ?_⟩
  rw [protectRange, if_neg (Nat.sub_ne_zero_of_lt hlt), if_neg (by simp [hp])]
  simp only [hdown, hup, hin, hc]
  rfl

end

end

end Aegis
