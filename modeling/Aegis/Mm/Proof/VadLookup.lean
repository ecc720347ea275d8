import Aegis.Mm.Proof.VadRange

/-!
# Pages of an address space

`dataAt f l p` is what `f` says of the page at `p` in the VAD that contains it. The order of the VADs
does not matter to it, so the steps on the VAD array are stated by what they do to single pages.
-/

namespace Aegis

open SwapList Apart

section
variable {α β : Type} {f g : Slot α → Nat → β} {l l' rest : List (Slot α)} {v u m : Slot α}
  {i p base stop : Nat}

instance (v : Vad) (p : Nat) : Decidable (v.Has p) := inferInstanceAs (Decidable (_ ∧ _))

/-- `f` of the VAD that has `p`. -/
def dataAt (f : Slot α → Nat → β) (l : List (Slot α)) (p : Nat) : Option β :=
  (vadLookup l p).map fun x => f x.1 p

theorem vadLookup_of_mem (h : AllApart l) (hv : v ∈ l) (hp : v.Has p) :
    ∃ i, vadLookup l p = some (v, i) := by
  cases hl : vadLookup l p with
  | none => exact absurd hp (vadLookup_none hl hv)
  | some x =>
    obtain ⟨u, i⟩ := x
    obtain ⟨hi, hu⟩ := vadLookup_some hl
    exact ⟨i, by rw [h.eq_of_mem hv (List.mem_of_getElem? hi) hp hu]⟩

theorem dataAt_eq_some (h : AllApart l) {b : β} :
    dataAt f l p = some b ↔ ∃ v ∈ l, v.Has p ∧ f v p = b := by
  constructor
  · intro hd
    obtain ⟨⟨v, i⟩, hl, hb⟩ := Option.map_eq_some_iff.1 hd
    obtain ⟨hi, hp⟩ := vadLookup_some hl
    exact ⟨v, List.mem_of_getElem? hi, hp, hb⟩
  · rintro ⟨v, hv, hp, rfl⟩
    obtain ⟨i, hl⟩ := vadLookup_of_mem h hv hp
    rw [dataAt, hl]
    rfl

theorem dataAt_of_mem (h : AllApart l) (hv : v ∈ l) (hp : v.Has p) : dataAt f l p = some (f v p) :=
  (dataAt_eq_some h).2 ⟨v, hv, hp, rfl⟩

theorem dataAt_eq_none : dataAt f l p = none ↔ ∀ v ∈ l, ¬ v.Has p := by
  constructor
  · intro hd v hv
    exact vadLookup_none (Option.map_eq_none_iff.1 hd) hv
  · intro hn
    cases hl : vadLookup l p with
    | none => rw [dataAt, hl, Option.map_none]
    | some x =>
      obtain ⟨hi, hp⟩ := vadLookup_some hl
      exact absurd hp (hn x.1 (List.mem_of_getElem? hi))

theorem dataAt_congr (h : ∀ v ∈ l, v.Has p → f v p = g v p) : dataAt f l p = dataAt g l p := by
  unfold dataAt
  cases hl : vadLookup l p with
  | none => rfl
  | some x =>
    obtain ⟨hi, hp⟩ := vadLookup_some hl
    rw [Option.map_some, Option.map_some, h x.1 (List.mem_of_getElem? hi) hp]

theorem dataAt_perm (h : AllApart l) (hp : l.Perm l') : dataAt f l p = dataAt f l' p := by
  refine Option.ext fun b => ?_
  rw [dataAt_eq_some h, dataAt_eq_some (h.perm hp)]
  simp only [hp.mem_iff]

theorem dataAt_cons (h : AllApart (v :: l)) :
    dataAt f (v :: l) p = if v.Has p then some (f v p) else dataAt f l p := by
  split
  · next hp => exact dataAt_of_mem h List.mem_cons_self hp
  · next hp =>
    refine Option.ext fun b => ?_
    rw [dataAt_eq_some h, dataAt_eq_some (allOff_cons.1 h).2]
    simp [hp]

section
variable (h : AllApart l) (hi : l[i]? = some v)
include h hi

theorem dataAt_getElem (hp : v.Has p) :
    dataAt f l p = some (f v p) := dataAt_of_mem h (List.mem_of_getElem? hi) hp

theorem dataAt_eraseIdx (hp : ¬ v.Has p) : dataAt f (l.eraseIdx i) p = dataAt f l p := by
  have hperm := perm_eraseIdx hi
  rw [dataAt_perm h hperm, dataAt_cons (h.perm hperm), if_neg hp]

theorem eraseIdx_off (hp : v.Has p) : dataAt f (l.eraseIdx i) p = none := by
  refine dataAt_eq_none.2 fun u hu hup => ?_
  have hoff := (allOff_cons.1 (h.perm (perm_eraseIdx hi))).1 u hu
  simp only [Off] at hoff
  obtain ⟨h1, h2⟩ := hp
  obtain ⟨h3, h4⟩ := hup
  omega

theorem dataAt_replace {parts : List (Slot α)} (hl' : AllApart l')
    (hperm : l'.Perm (parts ++ l.eraseIdx i))
    (hin : ∀ x ∈ parts, v.start ≤ x.start ∧ x.stop ≤ v.stop) :
    dataAt f l' p = if v.Has p then dataAt f parts p else dataAt f l p := by
  have hparts : AllApart parts := (List.pairwise_append.1 (hl'.perm hperm)).1
  refine Option.ext fun b => ?_
  rw [dataAt_eq_some hl']
  simp only [hperm.mem_iff, List.mem_append]
  split
  · next hp =>
    rw [dataAt_eq_some hparts]
    constructor
    · rintro ⟨x, hx | hx, hxp, hb⟩
      · exact ⟨x, hx, hxp, hb⟩
      · exact absurd hxp (dataAt_eq_none.1 (eraseIdx_off (f := f) h hi hp) x hx)
    · rintro ⟨x, hx, hxp, hb⟩
      exact ⟨x, .inl hx, hxp, hb⟩
  · next hp =>
    rw [← dataAt_eraseIdx h hi hp, dataAt_eq_some (allOff_cons.1 (h.perm (perm_eraseIdx hi))).2]
    constructor
    · rintro ⟨x, hx | hx, hxp, hb⟩
      · have := hin x hx
        exact absurd ⟨this.1.trans hxp.1, hxp.2.trans_le this.2⟩ hp
      · exact ⟨x, hx, hxp, hb⟩
    · rintro ⟨x, hx, hxp, hb⟩
      exact ⟨x, .inr hx, hxp, hb⟩

end

theorem Joined.dataAt (hj : Joined v u m l l') (h : AllApart l) (h' : AllApart l')
    (hv : v.start ≤ v.stop) (hu : u.start ≤ u.stop) (hfv : v.Has p → f m p = f v p)
    (hfu : u.Has p → f m p = f u p) : dataAt f l' p = dataAt f l p := by
  obtain ⟨rest, hl, hl'⟩ := hj.perm
  have hmeet := hj.meet
  have hstart := hj.start
  have hstop := hj.stop
  have happ := h.perm hl
  rw [dataAt_perm h hl, dataAt_perm h' hl', dataAt_cons (h'.perm hl'), dataAt_cons happ,
    dataAt_cons (allOff_cons.1 happ).2]
  by_cases hvp : v.Has p
  · have hm : m.Has p := ⟨by have := hvp.1; omega, by have := hvp.2; omega⟩
    rw [if_pos hm, if_pos hvp, hfv hvp]
  · by_cases hup : u.Has p
    · have hm : m.Has p := ⟨by have := hup.1; omega, by have := hup.2; omega⟩
      rw [if_pos hm, if_neg hvp, if_pos hup, hfu hup]
    · have hm : ¬ m.Has p := fun hmp => by
        unfold Vad.Has at hmp hvp hup
        omega
      rw [if_neg hm, if_neg hvp, if_neg hup]

/-! ## The steps -/

variable {left right mid : α} {nLeft nRight : Nat}

theorem dataAt_rests (hpart : Part v.toVad base stop) (hp : v.Has p) (hpa : p % 4096 = 0)
    (hv : v.Ok) (hl : nLeft = (base - v.start) / 4096) (hr : nRight = (v.stop - stop) / 4096)
    (hleft : p < base → f { v with stop := base, shadow := left } p = f v p)
    (hright : stop ≤ p → f { v with start := stop, shadow := right } p = f v p) :
    dataAt f (rests v base stop nLeft nRight left right) p =
      if base ≤ p ∧ p < stop then none else some (f v p) := by
  have h1 := hv.start
  have h2 := hv.stop
  have h3 := hpart.base_aligned
  have h4 := hpart.stop_aligned
  obtain ⟨hp1, hp2⟩ := hp
  have hapart := hpart.rests_apart nLeft nRight left right
  by_cases hm : base ≤ p ∧ p < stop
  · rw [if_pos hm]
    refine dataAt_eq_none.2 fun x hx hxp => ?_
    obtain ⟨hx1, hx2⟩ := hxp
    rcases mem_rests hx with ⟨-, rfl⟩ | ⟨-, rfl⟩
    · exact absurd hx2 (not_lt.2 hm.1)
    · exact absurd hx1 (not_le.2 hm.2)
  · rw [if_neg hm]
    by_cases hb : p < base
    · have hn : nLeft ≠ 0 := by omega
      have hmem : { v with stop := base, shadow := left } ∈
          rests v base stop nLeft nRight left right := by simp [rests, hn]
      rw [dataAt_of_mem hapart hmem ⟨hp1, hb⟩, hleft hb]
    · have hs : stop ≤ p := by omega
      have hn : nRight ≠ 0 := by omega
      have hmem : { v with start := stop, shadow := right } ∈
          rests v base stop nLeft nRight left right := by simp [rests, hn]
      rw [dataAt_of_mem hapart hmem ⟨hs, hp2⟩, hright hs]

/-- The view of a VAD is that of its rests, where these are. -/
structure RestsView (f : Slot α → Nat → β) (v : Slot α) (base stop : Nat) (left right : α)
    (p : Nat) : Prop where
  left : v.start ≤ p → p < base → f { v with stop := base, shadow := left } p = f v p
  right : stop ≤ p → p < v.stop → f { v with start := stop, shadow := right } p = f v p

theorem dataAt_carve (h : AllApart l) (hi : l[i]? = some v) (hv : v.Ok)
    (hpart : Part v.toVad base stop) (hl : nLeft = (base - v.start) / 4096)
    (hr : nRight = (v.stop - stop) / 4096) (h' : AllApart (carve l i v base stop nLeft nRight left right))
    (hpa : p % 4096 = 0) (hview : RestsView f v base stop left right p) :
    dataAt f (carve l i v base stop nLeft nRight left right) p =
      if base ≤ p ∧ p < stop then none else dataAt f l p := by
  have hstart := hpart.start_le
  have hstop := hpart.le_stop
  rw [dataAt_replace h hi h' (carve_perm hi ..) fun x hx => by
    rw [hl, hr] at hx
    exact ⟨(hpart.mem_rests hv hx).2.1, (hpart.mem_rests hv hx).2.2.1⟩]
  by_cases hp : v.Has p
  · rw [if_pos hp, dataAt_rests hpart hp hpa hv hl hr (hview.left hp.1)
      (fun hs => hview.right hs hp.2), dataAt_getElem h hi hp]
  · have hm : ¬ (base ≤ p ∧ p < stop) := fun hm => hp ⟨by omega, by omega⟩
    rw [if_neg hp, if_neg hm]

theorem dataAt_protectSplit (h : AllApart l) (hi : l[i]? = some v) (hv : v.Ok)
    (hpart : Part v.toVad base stop) (hl : nLeft = (base - v.start) / 4096)
    (hr : nRight = (v.stop - stop) / 4096) {prot : Prot}
    (h' : AllApart (protectSplit l i v base stop prot nLeft nRight left mid right))
    (hpa : p % 4096 = 0) (hview : RestsView f v base stop left right p) :
    dataAt f (protectSplit l i v base stop prot nLeft nRight left mid right) p =
      if base ≤ p ∧ p < stop then
        some (f { v with start := base, stop, prot, shadow := mid } p)
      else dataAt f l p := by
  have hstart := hpart.start_le
  have hstop := hpart.le_stop
  have hperm := protectSplit_perm hi base stop prot nLeft nRight left mid right
  have hparts := (List.pairwise_append.1 (h'.perm hperm)).1
  rw [dataAt_replace h hi h' hperm fun x hx => by
    rcases List.mem_cons.1 hx with rfl | hx
    · exact ⟨hstart, hstop⟩
    · rw [hl, hr] at hx
      exact ⟨(hpart.mem_rests hv hx).2.1, (hpart.mem_rests hv hx).2.2.1⟩]
  rw [dataAt_cons hparts]
  by_cases hm : base ≤ p ∧ p < stop
  · have hp : v.Has p := ⟨by omega, by omega⟩
    rw [if_pos hp, if_pos hm]
    exact if_pos hm
  · rw [if_neg hm]
    by_cases hp : v.Has p
    · rw [if_pos hp, dataAt_rests hpart hp hpa hv hl hr (hview.left hp.1)
        (fun hs => hview.right hs hp.2), if_neg hm, dataAt_getElem h hi hp]
      exact if_neg hm
    · rw [if_neg hp]

end

end Aegis
