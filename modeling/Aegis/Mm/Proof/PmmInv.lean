import Aegis.Mm.PmmSpec

/-!
# The buddy invariant

`Inv s L F D`: the invariant of the allocator with the frames of `D` set aside. An operation takes
a block out of its list or out of use (`Inv.detach_free`, `Inv.detach_used`), rewrites frames that
are set aside (`Inv.congr`), and gives blocks back one at a time (`Inv.attach_free`,
`Inv.attach_used`); between operations nothing is set aside. `L` are the live blocks, as address
and order, and `F` the frames that are free or set aside, so splitting and merging keep both.
-/

namespace Aegis.Pmm

open Finset

variable {o p q : Nat} {s : Pmm} {D : Finset Nat} {K : FrameState → Prop}

open Chain Dyadic

/-- The state of a free block's first frame. -/
def Free (st : FrameState) : Prop := st = .free

/-- The state of a live block's first frame. -/
def Used (st : FrameState) : Prop := st = .kernel ∨ st = .user

/-- `p` heads a block of order `o` whose state is `K`, and is not set aside. -/
structure Head (s : Pmm) (D : Finset Nat) (K : FrameState → Prop) (o p : Nat) : Prop where
  lt : p < s.nframes
  out : p ∉ D
  state : K (s.frames p).state
  order : (s.frames p).order = o

/-- The blocks outside `D` are whole and contain all `TAIL` frames outside `D`. -/
structure Shape (s : Pmm) (D : Finset Nat) : Prop where
  aside : ∀ f ∈ D, f < s.nframes
  whole : ∀ K o p, (K = Free ∨ K = Used) → Head s D K o p →
    Whole s o p ∧ Disjoint D (block p o)
  cover : ∀ q < s.nframes, q ∉ D → (s.frames q).state = .tail →
    ∃ K o p, (K = Free ∨ K = Used) ∧ Head s D K o p ∧ q ∈ block p o

/-- The first frames of the free blocks outside `D`. -/
def freeHeads (s : Pmm) (D : Finset Nat) : Finset Nat :=
  (range s.nframes).filter fun p => p ∉ D ∧ (s.frames p).state = .free

/-- The pages of the free blocks outside `D`. -/
def freeSum (s : Pmm) (D : Finset Nat) : Nat := ∑ p ∈ s.freeHeads D, 2 ^ (s.frames p).order

/-- The buddy allocator with the live blocks `L`, the free frames `F` and the frames `D` that are
being released. -/
structure Inv (s : Pmm) (L : Finset (Nat × Nat)) (F : Set Nat) (D : Finset Nat) : Prop where
  small : s.nframes < 2 ^ 32
  base : s.physBase < 2 ^ 64 ∧ s.physBase % 4096 = 0
  shape : Shape s D
  lists : Lists s (Head s D Free)
  pages : s.freePages = freeSum s D + D.card
  live : ∀ pa o, (pa, o) ∈ L ↔ ∃ p, Head s D Used o p ∧ pa = s.physOf p
  space : ∀ f, f ∈ F ↔ f ∈ D ∨ ∃ o p, Head s D Free o p ∧ f ∈ block p o
  maximal : ∀ o p, Head s D Free o p → o < pmmMaxOrder → ¬ Head s D Free o (buddy p o)

/-! ## `mark_block` -/

theorem setFrame_frames (s : Pmm) (p o : Nat) (st : FrameState) (q : Nat) :
    (s.setFrame p o st).frames q =
      if q = p then { s.frames p with order := u8 o, state := st } else s.frames q := by
  show Function.update s.frames p _ q = _
  by_cases h : q = p
  · subst h; simp
  · simp [h]

theorem markTails_frames {n : Nat} (hn : n < 2 ^ 32) :
    ∀ (k i : Nat) (s : Pmm), s.nframes = n → p + i + k ≤ n → ∀ q,
      (markTails p o k i s).frames q =
        if p + i ≤ q ∧ q < p + i + k then { s.frames q with order := u8 o, state := .tail }
        else s.frames q
  | 0, i, s, _, _, q => by
    rw [if_neg (by omega)]; rfl
  | k + 1, i, s, hs, hk, q => by
    have hu : u32 (p + i) = p + i := u32_of_lt (by omega)
    have hlt : p + i < s.nframes := by omega
    simp only [markTails, hu, hlt, if_true]
    rw [markTails_frames hn k (i + 1) _ (by exact hs) (by omega), setFrame_frames]
    by_cases hq : q = p + i
    · subst hq
      rw [if_neg (by omega), if_pos rfl, if_pos (by omega)]
    · rw [if_neg hq]
      by_cases h : p + i ≤ q ∧ q < p + i + (k + 1)
      · rw [if_pos (by omega), if_pos h]
      · rw [if_neg (by omega), if_neg h]

theorem markTails_rest : ∀ (k i : Nat) (s : Pmm),
    (markTails p o k i s).nframes = s.nframes ∧ (markTails p o k i s).physBase = s.physBase ∧
      (markTails p o k i s).freePages = s.freePages ∧ (markTails p o k i s).freeHead = s.freeHead
  | 0, _, _ => ⟨rfl, rfl, rfl, rfl⟩
  | k + 1, i, s => by
    unfold markTails
    split
    · exact markTails_rest k (i + 1) _
    · exact ⟨rfl, rfl, rfl, rfl⟩

theorem markBlock_rest (s : Pmm) (p o : Nat) (st : FrameState) :
    (s.markBlock p o st).nframes = s.nframes ∧ (s.markBlock p o st).physBase = s.physBase ∧
      (s.markBlock p o st).freePages = s.freePages ∧ (s.markBlock p o st).freeHead = s.freeHead :=
  markTails_rest _ _ _

theorem markBlock_frames (hn : s.nframes < 2 ^ 32) (ho : o ≤ pmmMaxOrder)
    (hp : p + 2 ^ o ≤ s.nframes) (st : FrameState) (q : Nat) :
    (s.markBlock p o st).frames q =
      if q = p then { s.frames p with order := o, state := st }
      else if p < q ∧ q < p + 2 ^ o then { s.frames q with order := o, state := .tail }
      else s.frames q := by
  have hpos := Nat.two_pow_pos o
  have hu : u8 o = o := u8_of_lt (by unfold pmmMaxOrder at ho; omega)
  unfold markBlock
  rw [markTails_frames hn _ _ _ (by rfl) (by omega), setFrame_frames, hu]
  by_cases hq : q = p
  · rw [if_pos hq, if_pos hq, if_neg (by omega)]
  · rw [if_neg hq, if_neg hq]
    by_cases h : p < q ∧ q < p + 2 ^ o
    · rw [if_pos h, if_pos (by omega)]
    · rw [if_neg h, if_neg (by omega)]

/-- The block `(p, o)` as `mark_block` leaves it. -/
structure Marked (s : Pmm) (p o : Nat) (st : FrameState) : Prop where
  state : (s.frames p).state = st
  order : (s.frames p).order = o
  tails : ∀ q, p < q → q < p + 2 ^ o → (s.frames q).state = .tail

theorem markBlock_marked (hn : s.nframes < 2 ^ 32) (ho : o ≤ pmmMaxOrder)
    (hp : p + 2 ^ o ≤ s.nframes) (st : FrameState) : Marked (s.markBlock p o st) p o st where
  state := by rw [markBlock_frames hn ho hp, if_pos rfl]
  order := by rw [markBlock_frames hn ho hp, if_pos rfl]
  tails q h1 h2 := by
    rw [markBlock_frames hn ho hp, if_neg (by omega), if_pos ⟨h1, h2⟩]

theorem markBlock_outside (hn : s.nframes < 2 ^ 32) (ho : o ≤ pmmMaxOrder)
    (hp : p + 2 ^ o ≤ s.nframes) (st : FrameState) (hq : q ∉ block p o) :
    (s.markBlock p o st).frames q = s.frames q := by
  have hpos := Nat.two_pow_pos o
  rw [mem_block, Mem] at hq
  rw [markBlock_frames hn ho hp, if_neg (by omega), if_neg (by omega)]

/-! ## Addresses -/

theorem pfnOf_physOf (hb : s.physBase < 2 ^ 64) (hp : p < 2 ^ 32) : s.pfnOf (s.physOf p) = p := by
  have hsub : sub64 (s.physOf p) s.physBase = p * 2 ^ 12 := by
    simp only [physOf, sub64, Word.sub, u64, Word.wrap, pageShift, Nat.shiftLeft_eq]
    omega
  rw [pfnOf, hsub, pageShift, Nat.shiftRight_eq_div_pow, Nat.mul_div_cancel _ (by decide)]
  exact u32_of_lt (by omega)

theorem physOf_inj (hb : s.physBase < 2 ^ 64) (hp : p < 2 ^ 32) (hq : q < 2 ^ 32)
    (h : s.physOf p = s.physOf q) : p = q := by
  rw [← pfnOf_physOf hb hp, h, pfnOf_physOf hb hq]

theorem physOf_mod (hb : s.physBase % 4096 = 0) (p : Nat) : s.physOf p % 4096 = 0 := by
  simp only [physOf, u64, Word.wrap, pageShift, Nat.shiftLeft_eq]
  omega

theorem physOf_ne_invalid (hb : s.physBase % 4096 = 0) (p : Nat) : s.physOf p ≠ pmmInvalid := by
  have := physOf_mod hb p
  unfold pmmInvalid
  omega

/-! ## Heads and their blocks -/

theorem mem_freeHeads : p ∈ s.freeHeads D ↔ Head s D Free (s.frames p).order p := by
  unfold freeHeads
  rw [mem_filter, mem_range]
  exact ⟨fun h => ⟨h.1, h.2.1, h.2.2, rfl⟩, fun h => ⟨h.lt, h.out, h.state⟩⟩

theorem Head.ne_tail (hK : K = Free ∨ K = Used) (h : Head s D K o p) :
    (s.frames p).state ≠ .tail := by
  intro ht
  have := h.state
  rw [ht] at this
  rcases hK with rfl | rfl <;> simp [Free, Used] at this

theorem Shape.eq_of_mem {K' : FrameState → Prop} {f o' p' : Nat} (h : Shape s D)
    (hK : K = Free ∨ K = Used) (hK' : K' = Free ∨ K' = Used) (hp : Head s D K o p)
    (hp' : Head s D K' o' p') (hf : f ∈ block p o) (hf' : f ∈ block p' o') : p = p' ∧ o = o' := by
  have hw := (h.whole K o p hK hp).1
  have hw' := (h.whole K' o' p' hK' hp').1
  rw [mem_block, Mem] at hf hf'
  -- otherwise the later head is a `TAIL` of the other block
  rcases Nat.lt_trichotomy p p' with hl | rfl | hl
  · exact absurd (hw.tails p' hl (by omega)) (hp'.ne_tail hK')
  · exact ⟨rfl, hp.order.symm.trans hp'.order⟩
  · exact absurd (hw'.tails p hl (by omega)) (hp.ne_tail hK)

/-- The frames of the free blocks outside `D`. -/
def freeFrames (s : Pmm) (D : Finset Nat) : Finset Nat :=
  (s.freeHeads D).biUnion fun p => block p (s.frames p).order

theorem Shape.freeSum_eq (h : Shape s D) : freeSum s D = (s.freeFrames D).card := by
  have hdisj : ∀ p ∈ s.freeHeads D, ∀ q ∈ s.freeHeads D, p ≠ q →
      Disjoint (block p (s.frames p).order) (block q (s.frames q).order) := by
    intro p hp q hq hne
    refine disjoint_left.2 fun f hf hf' => hne ?_
    exact (h.eq_of_mem (.inl rfl) (.inl rfl) (mem_freeHeads.1 hp) (mem_freeHeads.1 hq) hf hf').1
  unfold freeFrames
  rw [card_biUnion hdisj]
  exact sum_congr rfl fun p _ => (card_block _ _).symm

/-- The free blocks and the frames set aside fit into the array together. -/
theorem Shape.freeSum_le (h : Shape s D) : freeSum s D + D.card ≤ s.nframes := by
  have hw := fun p hp => h.whole Free _ p (.inl rfl) (mem_freeHeads.1 hp)
  have hD : Disjoint (s.freeFrames D) D := by
    unfold freeFrames
    rw [disjoint_biUnion_left]
    exact fun p hp => (hw p hp).2.symm
  rw [h.freeSum_eq, ← card_union_of_disjoint hD, ← card_range s.nframes]
  refine card_le_card (union_subset ?_ fun f hf => mem_range.2 (h.aside f hf))
  intro f hf
  obtain ⟨p, hp, hfp⟩ := mem_biUnion.1 hf
  have := (hw p hp).1.inside
  rw [mem_block, Mem] at hfp
  exact mem_range.2 (by omega)

/-! ## Setting blocks aside and giving them back -/

section
variable {s : Pmm} {D : Finset Nat} {o p : Nat}
variable {n : Nat} {s' : Pmm} {st : FrameState} {K K' : FrameState → Prop}

theorem head_attach (hM : Marked s p o st) (hn : p < s.nframes) (hsub : block p o ⊆ D)
    (hK : K = Free ∨ K = Used) (r q : Nat) :
    Head s (D \ block p o) K r q ↔ Head s D K r q ∨ (K st ∧ r = o ∧ q = p) := by
  constructor
  · intro h
    by_cases hq : q ∈ D
    · -- inside the block only the first frame is no tail
      have hb : q ∈ block p o := by
        by_contra hb
        exact h.out (mem_sdiff.2 ⟨hq, hb⟩)
      rw [mem_block, Mem] at hb
      have hqp : q = p := by
        by_contra hne
        exact h.ne_tail hK (hM.tails q (by omega) hb.2)
      subst hqp
      exact .inr ⟨hM.state ▸ h.state, h.order.symm.trans hM.order, rfl⟩
    · exact .inl ⟨h.lt, hq, h.state, h.order⟩
  · rintro (h | ⟨hk, rfl, rfl⟩)
    · exact ⟨h.lt, fun hq => h.out (mem_sdiff.1 hq).1, h.state, h.order⟩
    · refine ⟨hn, fun hq => (mem_sdiff.1 hq).2 (mem_block.2 (mem_self q r)), ?_, hM.order⟩
      rw [hM.state]
      exact hk

theorem head_detach (hS : Shape s D) (hK' : K' = Free ∨ K' = Used) (hp : Head s D K' o p)
    (hK : K = Free ∨ K = Used) (r q : Nat) :
    Head s (D ∪ block p o) K r q ↔ Head s D K r q ∧ q ≠ p := by
  constructor
  · intro h
    have hq := h.out
    rw [mem_union, not_or] at hq
    refine ⟨⟨h.lt, hq.1, h.state, h.order⟩, ?_⟩
    rintro rfl
    exact hq.2 (mem_block.2 (mem_self q o))
  · rintro ⟨h, hne⟩
    refine ⟨h.lt, fun hq => ?_, h.state, h.order⟩
    rcases mem_union.1 hq with hq | hq
    · exact h.out hq
    · exact hne (hS.eq_of_mem hK hK' h hp (mem_block.2 (mem_self q r)) hq).1

theorem Shape.attach (h : Shape s D) (hM : Marked s p o st) (hst : Free st ∨ Used st)
    (ho : o ≤ pmmMaxOrder) (hal : 2 ^ o ∣ p) (hin : p + 2 ^ o ≤ s.nframes) (hsub : block p o ⊆ D) :
    Shape s (D \ block p o) := by
  have hpos := Nat.two_pow_pos o
  have hp : p < s.nframes := by omega
  refine ⟨fun f hf => h.aside f (mem_sdiff.1 hf).1, fun K r q hK hq => ?_,
    fun q hq hqD ht => ?_⟩
  · rcases (head_attach hM hp hsub hK r q).1 hq with hq | ⟨-, rfl, rfl⟩
    · obtain ⟨hw, hd⟩ := h.whole K r q hK hq
      exact ⟨hw, hd.mono_left sdiff_subset⟩
    · exact ⟨⟨ho, hal, hin, hM.tails⟩, sdiff_disjoint⟩
  · by_cases hD : q ∈ D
    · have hb : q ∈ block p o := by
        by_contra hb
        exact hqD (mem_sdiff.2 ⟨hD, hb⟩)
      rcases hst with hst | hst
      · exact ⟨Free, o, p, .inl rfl, (head_attach hM hp hsub (.inl rfl) o p).2
          (.inr ⟨hst, rfl, rfl⟩), hb⟩
      · exact ⟨Used, o, p, .inr rfl, (head_attach hM hp hsub (.inr rfl) o p).2
          (.inr ⟨hst, rfl, rfl⟩), hb⟩
    · obtain ⟨K, r, x, hK, hx, hm⟩ := h.cover q hq hD ht
      exact ⟨K, r, x, hK, (head_attach hM hp hsub hK r x).2 (.inl hx), hm⟩

theorem Shape.detach (h : Shape s D) (hK' : K' = Free ∨ K' = Used) (hp : Head s D K' o p) :
    Shape s (D ∪ block p o) := by
  refine ⟨fun f hf => ?_, fun K r q hK hq => ?_, fun q hq hqD ht => ?_⟩
  · rcases mem_union.1 hf with hf | hf
    · exact h.aside f hf
    · have := (h.whole K' o p hK' hp).1.inside
      rw [mem_block, Mem] at hf
      omega
  · obtain ⟨hq, hne⟩ := (head_detach h hK' hp hK r q).1 hq
    obtain ⟨hw, hd⟩ := h.whole K r q hK hq
    refine ⟨hw, disjoint_union_left.2 ⟨hd, disjoint_left.2 fun f hf hf' => hne ?_⟩⟩
    exact (h.eq_of_mem hK hK' hq hp hf' hf).1
  · rw [mem_union, not_or] at hqD
    obtain ⟨K, r, x, hK, hx, hm⟩ := h.cover q hq hqD.1 ht
    refine ⟨K, r, x, hK, (head_detach h hK' hp hK r x).2 ⟨hx, ?_⟩, hm⟩
    rintro rfl
    have : r = o := hx.order.symm.trans hp.order
    exact hqD.2 (this ▸ hm)

theorem freeSum_attach (hM : Marked s p o st) (hn : p < s.nframes) (hsub : block p o ⊆ D) :
    freeSum s (D \ block p o) = freeSum s D + if st = .free then 2 ^ o else 0 := by
  have hpD : p ∈ D := hsub (mem_block.2 (mem_self p o))
  have hmem : ∀ q, q ∈ s.freeHeads (D \ block p o) ↔
      q ∈ s.freeHeads D ∨ (st = .free ∧ q = p) := by
    intro q
    rw [mem_freeHeads, mem_freeHeads, head_attach hM hn hsub (.inl rfl)]
    refine or_congr_right ⟨fun h => ⟨h.1, h.2.2⟩, ?_⟩
    rintro ⟨h, rfl⟩
    exact ⟨h, hM.order, rfl⟩
  unfold freeSum
  split
  · rename_i h
    have he : s.freeHeads (D \ block p o) = insert p (s.freeHeads D) := by
      ext q
      rw [hmem, mem_insert]
      simp only [h, true_and]
      exact or_comm
    rw [he, sum_insert fun hp => (mem_freeHeads.1 hp).out hpD, hM.order, Nat.add_comm]
  · rename_i h
    have he : s.freeHeads (D \ block p o) = s.freeHeads D := by
      ext q
      rw [hmem]
      simp only [h, false_and, or_false]
    rw [he, Nat.add_zero]

theorem freeSum_detach (hS : Shape s D) (hK : K = Free ∨ K = Used) (hp : Head s D K o p) :
    freeSum s D = freeSum s (D ∪ block p o) + if (s.frames p).state = .free then 2 ^ o else 0 := by
  have hM : Marked s p o (s.frames p).state :=
    ⟨rfl, hp.order, (hS.whole K o p hK hp).1.tails⟩
  have hd := (hS.whole K o p hK hp).2
  have he : (D ∪ block p o) \ block p o = D := by
    rw [union_sdiff_right]
    exact sdiff_eq_self_of_disjoint hd
  have := freeSum_attach (D := D ∪ block p o) hM hp.lt subset_union_right
  rwa [he] at this

/-! ## The steps of an operation -/

variable {L : Finset (Nat × Nat)} {F : Set Nat}

/-- States that agree outside the part set aside, the lists included, have the same invariant. -/
theorem Inv.congr (h : Inv s L F D) (hn : s'.nframes = s.nframes) (hb : s'.physBase = s.physBase)
    (hf : s'.freePages = s.freePages) (hh : s'.freeHead = s.freeHead)
    (hfr : ∀ q, q ∉ D → s'.frames q = s.frames q) : Inv s' L F D := by
  have hH : ∀ K r q, Head s' D K r q ↔ Head s D K r q := fun K r q =>
    ⟨fun x => ⟨hn ▸ x.lt, x.out, hfr q x.out ▸ x.state, hfr q x.out ▸ x.order⟩,
      fun x => ⟨hn.symm ▸ x.lt, x.out, (hfr q x.out).symm ▸ x.state,
        (hfr q x.out).symm ▸ x.order⟩⟩
  have hset : s'.freeHeads D = s.freeHeads D := by
    unfold freeHeads
    rw [hn]
    refine filter_congr fun q _ => and_congr_right fun hq => ?_
    rw [hfr q hq]
  refine ⟨hn ▸ h.small, hb ▸ h.base, ⟨fun f hf => hn ▸ h.shape.aside f hf, ?_, ?_⟩, ?_, ?_, ?_, ?_,
    ?_⟩
  · intro K r q hK hq
    obtain ⟨hw, hd⟩ := h.shape.whole K r q hK ((hH K r q).1 hq)
    refine ⟨⟨hw.order, hw.aligned, hn ▸ hw.inside, fun x h1 h2 => ?_⟩, hd⟩
    rw [hfr x (disjoint_right.1 hd (mem_block.2 ⟨by omega, h2⟩))]
    exact hw.tails x h1 h2
  · intro q hq hqD ht
    obtain ⟨K, r, x, hK, hx, hm⟩ := h.shape.cover q (hn ▸ hq) hqD (hfr q hqD ▸ ht)
    exact ⟨K, r, x, hK, (hH K r x).2 hx, hm⟩
  · refine h.lists.congr hh (fun r q hq => ?_) fun r _ q => hH Free r q
    unfold next
    rw [hfr q hq.out]
  · rw [hf, h.pages]
    unfold freeSum
    rw [hset]
    congr 1
    refine sum_congr rfl fun q hq => ?_
    rw [hfr q (mem_freeHeads.1 hq).out]
  · intro pa r
    rw [h.live]
    simp only [hH, physOf, hb]
  · intro f
    rw [h.space]
    simp only [hH]
  · simpa only [hH] using h.maximal

theorem Inv.mark (h : Inv s L F D) (ho : o ≤ pmmMaxOrder) (hsub : block p o ⊆ D)
    (st : FrameState) : Inv (s.markBlock p o st) L F D ∧ Marked (s.markBlock p o st) p o st := by
  have hin : p + 2 ^ o ≤ s.nframes := by
    have hpos := Nat.two_pow_pos o
    have := h.shape.aside (p + 2 ^ o - 1) (hsub (mem_block.2 ⟨by omega, by omega⟩))
    omega
  obtain ⟨h1, h2, h3, h4⟩ := markBlock_rest s p o st
  refine ⟨h.congr h1 h2 h3 h4 fun q hq => ?_, markBlock_marked h.small ho hin st⟩
  exact markBlock_outside h.small ho hin st fun hb => hq (hsub hb)

theorem head_relink (hs : SameFrames s s') (r q : Nat) : Head s' D K r q ↔ Head s D K r q :=
  ⟨fun x => ⟨hs.nframes ▸ x.lt, x.out, hs.state q ▸ x.state, hs.order q ▸ x.order⟩,
    fun x => ⟨hs.nframes.symm ▸ x.lt, x.out, (hs.state q).symm ▸ x.state,
      (hs.order q).symm ▸ x.order⟩⟩

theorem Shape.relink (hs : SameFrames s s') (h : Shape s D) : Shape s' D := by
  refine ⟨fun f hf => hs.nframes ▸ h.aside f hf, fun K r q hK hq => ?_, fun q hq hqD ht => ?_⟩
  · obtain ⟨hw, hd⟩ := h.whole K r q hK ((head_relink hs r q).1 hq)
    refine ⟨⟨hw.order, hw.aligned, hs.nframes ▸ hw.inside, fun x h1 h2 => ?_⟩, hd⟩
    rw [hs.state]
    exact hw.tails x h1 h2
  · obtain ⟨K, r, x, hK, hx, hm⟩ := h.cover q (hs.nframes ▸ hq) hqD (hs.state q ▸ ht)
    exact ⟨K, r, x, hK, (head_relink hs r x).2 hx, hm⟩

theorem freeSum_relink (hs : SameFrames s s') (D : Finset Nat) : freeSum s' D = freeSum s D := by
  unfold freeSum freeHeads
  simp only [hs.nframes, hs.state, hs.order]

theorem physOf_relink (hs : SameFrames s s') (q : Nat) : s'.physOf q = s.physOf q := by
  simp only [physOf, hs.physBase]

theorem Shape.inside (h : Shape s D) (hsub : block p o ⊆ D) : p + 2 ^ o ≤ s.nframes := by
  have hpos := Nat.two_pow_pos o
  have := h.aside (p + 2 ^ o - 1) (hsub (mem_block.2 ⟨by omega, by omega⟩))
  omega

theorem Inv.attach_free (h : Inv s L F D) (hM : Marked s p o .free) (ho : o ≤ pmmMaxOrder)
    (hal : 2 ^ o ∣ p) (hsub : block p o ⊆ D)
    (hmax : o < pmmMaxOrder → ¬ Head s D Free o (buddy p o)) :
    Inv (s.listPush o p) L F (D \ block p o) := by
  have hpD : p ∈ D := hsub (mem_block.2 (mem_self p o))
  have hin := h.shape.inside hsub
  have hp : p < s.nframes := h.shape.aside p hpD
  have hs := listPush_same s o p
  have hfree : ∀ r q, Head (s.listPush o p) (D \ block p o) Free r q ↔
      Head s D Free r q ∨ (r = o ∧ q = p) := by
    intro r q
    rw [head_relink hs.toSameFrames, head_attach hM hp hsub (.inl rfl)]
    simp [Free]
  have hused : ∀ r q, Head (s.listPush o p) (D \ block p o) Used r q ↔ Head s D Used r q := by
    intro r q
    rw [head_relink hs.toSameFrames, head_attach hM hp hsub (.inr rfl)]
    simp [Used]
  refine ⟨hs.nframes ▸ h.small, hs.physBase ▸ h.base,
    (h.shape.attach hM (.inl rfl) ho hal hin hsub).relink hs.toSameFrames, ?_, ?_, ?_, ?_, ?_⟩
  · have hnil : p ≠ pfnNil := by
      have := h.small
      unfold pfnNil
      omega
    exact (h.lists.push (r := o) (fun r _ hr => hr.out hpD) hnil).congr rfl (fun _ _ _ => rfl)
      fun r _ q => hfree r q
  · rw [hs.freePages, freeSum_relink hs.toSameFrames, freeSum_attach hM hp hsub, if_pos rfl,
      h.pages, card_sdiff_of_subset hsub, card_block]
    have := card_le_card hsub
    rw [card_block] at this
    omega
  · intro pa r
    simp only [h.live, hused, physOf_relink hs.toSameFrames]
  · intro f
    rw [h.space, mem_sdiff]
    simp only [hfree]
    constructor
    · rintro (hf | ⟨r, q, hq, hf⟩)
      · by_cases hb : f ∈ block p o
        · exact .inr ⟨o, p, .inr ⟨rfl, rfl⟩, hb⟩
        · exact .inl ⟨hf, hb⟩
      · exact .inr ⟨r, q, .inl hq, hf⟩
    · rintro (⟨hf, -⟩ | ⟨r, q, hq | ⟨rfl, rfl⟩, hf⟩)
      · exact .inl hf
      · exact .inr ⟨r, q, hq, hf⟩
      · exact .inl (hsub hf)
  · intro r q hq hr hq'
    rw [hfree] at hq hq'
    rcases hq with hq | ⟨rfl, rfl⟩
    · rcases hq' with hq' | ⟨rfl, he⟩
      · exact h.maximal r q hq hr hq'
      · refine hmax hr ?_
        rw [← he, buddy_buddy]
        exact hq
    · rcases hq' with hq' | ⟨-, he⟩
      · exact hmax hr hq'
      · exact buddy_ne q r he

theorem Inv.attach_used (h : Inv s L F D) (hM : Marked s p o st) (hst : Used st)
    (ho : o ≤ pmmMaxOrder) (hal : 2 ^ o ∣ p) (hsub : block p o ⊆ D)
    (hn : n = sub64 s.freePages (2 ^ o)) :
    Inv { s with freePages := n } (insert (s.physOf p, o) L) (F \ block p o) (D \ block p o) := by
  have hp : p < s.nframes := h.shape.aside p (hsub (mem_block.2 (mem_self p o)))
  have hnf : st ≠ .free := by rcases hst with rfl | rfl <;> simp
  have hs : SameFrames s { s with freePages := n } :=
    ⟨rfl, rfl, fun _ => rfl, fun _ => rfl⟩
  have hfree : ∀ r q, Head { s with freePages := n } (D \ block p o) Free r q ↔
      Head s D Free r q := by
    intro r q
    rw [head_relink hs, head_attach hM hp hsub (.inl rfl)]
    simp [Free, hnf]
  have hused : ∀ r q, Head { s with freePages := n } (D \ block p o) Used r q ↔
      Head s D Used r q ∨ (r = o ∧ q = p) := by
    intro r q
    rw [head_relink hs, head_attach hM hp hsub (.inr rfl)]
    simp [hst]
  refine ⟨h.small, h.base,
    (h.shape.attach hM (.inr hst) ho hal (h.shape.inside hsub) hsub).relink hs, ?_, ?_, ?_, ?_, ?_⟩
  · exact h.lists.congr rfl (fun _ _ _ => rfl) fun r _ q => hfree r q
  · have hcard := card_le_card hsub
    have hle := h.shape.freeSum_le
    have hsmall := h.small
    have hpages := h.pages
    rw [card_block] at hcard
    rw [freeSum_relink hs, freeSum_attach hM hp hsub, if_neg hnf,
      card_sdiff_of_subset hsub, card_block]
    show n = _
    rw [hn, sub64_of_le (by omega) (by omega)]
    omega
  · intro pa r
    rw [mem_insert, Prod.mk.injEq, h.live]
    simp only [hused, physOf_relink hs]
    constructor
    · rintro (⟨rfl, rfl⟩ | ⟨q, hq, rfl⟩)
      · exact ⟨p, .inr ⟨rfl, rfl⟩, rfl⟩
      · exact ⟨q, .inl hq, rfl⟩
    · rintro ⟨q, hq | ⟨rfl, rfl⟩, rfl⟩
      · exact .inr ⟨q, hq, rfl⟩
      · exact .inl ⟨rfl, rfl⟩
  · intro f
    rw [Set.mem_sdiff, h.space, mem_sdiff, mem_coe]
    simp only [hfree]
    constructor
    · rintro ⟨hf | hf, hb⟩
      · exact .inl ⟨hf, hb⟩
      · exact .inr hf
    · rintro (⟨hf, hb⟩ | ⟨r, q, hq, hf⟩)
      · exact ⟨.inl hf, hb⟩
      · -- a free block outside `D` does not meet a block inside it
        refine ⟨.inr ⟨r, q, hq, hf⟩, fun hb => ?_⟩
        exact disjoint_left.1 (h.shape.whole Free r q (.inl rfl) hq).2 (hsub hb) hf
  · simpa only [hfree] using h.maximal

theorem Inv.detach_free (h : Inv s L F D) (hp : Head s D Free o p) (hs : SameBlocks s s')
    (hl : Lists s' fun r q => Head s D Free r q ∧ q ≠ p) : Inv s' L F (D ∪ block p o) := by
  have hd := (h.shape.whole Free o p (.inl rfl) hp).2
  have hfree : ∀ r q, Head s' (D ∪ block p o) Free r q ↔ Head s D Free r q ∧ q ≠ p := by
    intro r q
    rw [head_relink hs.toSameFrames, head_detach h.shape (.inl rfl) hp (.inl rfl)]
  have hused : ∀ r q, Head s' (D ∪ block p o) Used r q ↔ Head s D Used r q := by
    intro r q
    rw [head_relink hs.toSameFrames, head_detach h.shape (.inl rfl) hp (.inr rfl)]
    refine and_iff_left_of_imp fun hq he => ?_
    have h1 := hq.state
    rw [he, show (s.frames p).state = .free from hp.state] at h1
    simp [Used] at h1
  refine ⟨hs.nframes ▸ h.small, hs.physBase ▸ h.base,
    (h.shape.detach (.inl rfl) hp).relink hs.toSameFrames, ?_, ?_, ?_, ?_, ?_⟩
  · exact hl.congr rfl (fun _ _ _ => rfl) fun r _ q => hfree r q
  · rw [hs.freePages, freeSum_relink hs.toSameFrames, h.pages,
      freeSum_detach h.shape (.inl rfl) hp, if_pos (show (s.frames p).state = .free from hp.state),
      card_union_of_disjoint hd, card_block]
    omega
  · intro pa r
    simp only [h.live, hused, physOf_relink hs.toSameFrames]
  · intro f
    rw [h.space, mem_union]
    simp only [hfree]
    constructor
    · rintro (hf | ⟨r, q, hq, hf⟩)
      · exact .inl (.inl hf)
      · by_cases he : q = p
        · subst he
          exact .inl (.inr (by rwa [← hp.order, hq.order]))
        · exact .inr ⟨r, q, ⟨hq, he⟩, hf⟩
    · rintro ((hf | hf) | ⟨r, q, hq, hf⟩)
      · exact .inl hf
      · exact .inr ⟨o, p, hp, hf⟩
      · exact .inr ⟨r, q, hq.1, hf⟩
  · intro r q hq hr hq'
    rw [hfree] at hq hq'
    exact h.maximal r q hq.1 hr hq'.1

theorem Inv.detach_used (h : Inv s L F D) (hp : Head s D Used o p)
    (hn : n = u64 (s.freePages + 2 ^ o)) :
    Inv { s with freePages := n } (L.erase (s.physOf p, o)) (F ∪ block p o) (D ∪ block p o) := by
  have hd := (h.shape.whole Used o p (.inr rfl) hp).2
  have hnf : (s.frames p).state ≠ .free := by rcases hp.state with e | e <;> rw [e] <;> simp
  have hs : SameFrames s { s with freePages := n } :=
    ⟨rfl, rfl, fun _ => rfl, fun _ => rfl⟩
  have hfree : ∀ r q, Head { s with freePages := n } (D ∪ block p o) Free r q ↔
      Head s D Free r q := by
    intro r q
    rw [head_relink hs, head_detach h.shape (.inr rfl) hp (.inl rfl)]
    exact and_iff_left_of_imp fun hq he => hnf (he ▸ hq.state)
  have hused : ∀ r q, Head { s with freePages := n } (D ∪ block p o) Used r q ↔
      Head s D Used r q ∧ q ≠ p := by
    intro r q
    rw [head_relink hs, head_detach h.shape (.inr rfl) hp (.inr rfl)]
  have hshape := h.shape.detach (.inr rfl) hp
  refine ⟨h.small, h.base, hshape.relink hs, ?_, ?_, ?_, ?_, ?_⟩
  · exact h.lists.congr rfl (fun _ _ _ => rfl) fun r _ q => hfree r q
  · have hle := hshape.freeSum_le
    have hsmall := h.small
    have hsum := freeSum_detach h.shape (.inr rfl) hp
    have hpages := h.pages
    rw [if_neg hnf] at hsum
    rw [card_union_of_disjoint hd, card_block] at hle
    rw [freeSum_relink hs, card_union_of_disjoint hd, card_block]
    show n = _
    rw [hn, u64_of_lt (by omega)]
    omega
  · intro pa r
    rw [mem_erase, Ne, Prod.mk.injEq, h.live]
    simp only [hused, physOf_relink hs]
    constructor
    · rintro ⟨hne, q, hq, rfl⟩
      refine ⟨q, ⟨hq, ?_⟩, rfl⟩
      rintro rfl
      exact hne ⟨rfl, hq.order.symm.trans hp.order⟩
    · rintro ⟨q, ⟨hq, hqp⟩, rfl⟩
      have hsmall := h.small
      have hlq := hq.lt
      have hlp := hp.lt
      exact ⟨fun he => hqp (physOf_inj h.base.1 (by omega) (by omega) he.1), q, hq, rfl⟩
  · intro f
    rw [Set.mem_union, h.space, mem_union, mem_coe]
    simp only [hfree]
    exact or_right_comm
  · simpa only [hfree] using h.maximal

end

end Aegis.Pmm
