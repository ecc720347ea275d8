import Aegis.Mm.Proof.PmmInv

/-!
# `pmm_init` establishes the buddy invariant

The list build walks the frame array once. The invariant of the walk at `p` is the buddy invariant
of the first `p` frames alone (`Built`), with the remark that a block already built could not have
been one order larger: so no two of the blocks are buddies. `pmmInit_returns`: on an array of
fewer than `2 ^ 32` frames the walk ends, in a state with the invariant.
-/

namespace Aegis.Pmm

open Finset

variable {kphys ksize n o p : Nat} {s s0 : Pmm} {t : Target} {map : List MmapEntry}

open Chain Dyadic

/-! ## The frame states of the map -/

/-- Before the list build: every frame is free or reserved, and the lists are empty. -/
structure Blank (s : Pmm) : Prop where
  base : s.physBase < 2 ^ 64 ∧ s.physBase % 4096 = 0
  heads : ∀ o, s.freeHead o = pfnNil
  pages : s.freePages = 0
  state : ∀ p, (s.frames p).state = .free ∨ (s.frames p).state = .reserved
  outside : ∀ p, s.nframes ≤ p → (s.frames p).state ≠ .free

theorem Blank.fillState (h : Blank s) (lo : Nat) {hi : Nat} (hhi : hi ≤ s.nframes)
    {st : FrameState} (hst : st = .free ∨ st = .reserved) : Blank (s.fillState lo hi st) := by
  refine ⟨h.base, h.heads, h.pages, fun p => ?_, fun p hp => ?_⟩
  · simp only [Pmm.fillState]
    split
    · exact hst
    · exact h.state p
  · have hp : s.nframes ≤ p := hp
    simp only [Pmm.fillState]
    rw [if_neg (by omega)]
    exact h.outside p hp

theorem Blank.reserve (h : Blank s) (lo hi : Nat) : Blank (s.reserve lo hi) :=
  h.fillState lo (Nat.min_le_right _ _) (.inr rfl)

theorem Blank.addRegion (h : Blank s) (e : MmapEntry) : Blank (s.addRegion e) := by
  simp only [Pmm.addRegion]
  split_ifs <;> first | exact h | exact h.fillState _ (by omega) (.inl rfl)

theorem Blank.foldl_addRegion (h : Blank s) (map : List MmapEntry) :
    Blank (map.foldl Pmm.addRegion s) := by
  induction map generalizing s with
  | nil => exact h
  | cons e map ih => exact ih (h.addRegion e)

theorem initFrames_blank (h : initFrames t map kphys ksize = .ok s) : Blank s := by
  unfold initFrames at h
  obtain ⟨mn, mx⟩ := scanMap map
  dsimp only at h
  split at h
  · cases h
  split at h
  · cases h
  have hblank : ∀ b n, b < 2 ^ 64 → b % 4096 = 0 →
      Blank ⟨fun _ => ⟨0, .reserved, pfnNil⟩, n, b, fun _ => pfnNil, 0, 0⟩ := fun b n h1 h2 =>
    ⟨⟨h1, h2⟩, fun _ => rfl, rfl, fun _ => .inr rfl, fun _ _ => by simp⟩
  split at h
  · split at h
    · cases h
    · cases h
      exact (hblank _ _ (pageAlignUp_lt _) (pageAlignUp_mod _)).fillState _ (Nat.le_refl _)
        (.inl rfl)
  · split at h
    · cases h
    · cases h
      exact (((hblank _ _ (pageAlignDown_lt _) (pageAlignDown_mod _)).foldl_addRegion
        map).reserve _ _).reserve _ _

/-! ## The list build -/

/-- All frames of the block are free in the map `s`. -/
def AllFree (s : Pmm) (p o : Nat) : Prop := ∀ f ∈ block p o, (s.frames f).state = .free

/-- The block of order `o + 1` at `p` cannot be built from the map `s`. -/
def Largest (s : Pmm) (p o : Nat) : Prop :=
  o < pmmMaxOrder → 2 ^ (o + 1) ∣ p → p + 2 ^ (o + 1) ≤ s.nframes → ¬ AllFree s p (o + 1)

theorem block_no_wrap (ho : o < pmmMaxOrder) (hd : 2 ^ (o + 1) ∣ p) (hp : p < 2 ^ 32) :
    p + 2 ^ (o + 1) ≤ 2 ^ 32 := by
  have h32 : 2 ^ (o + 1) ∣ 2 ^ 32 := Nat.pow_dvd_pow 2 (by unfold pmmMaxOrder at ho; omega)
  obtain ⟨a, rfl⟩ := hd
  obtain ⟨b, hb⟩ := h32
  rw [hb] at hp ⊢
  rw [← Nat.mul_succ]
  exact Nat.mul_le_mul_left _ (Nat.lt_of_mul_lt_mul_left hp)

theorem growOrder_spec (hn : s.nframes < 2 ^ 32)
    (hout : ∀ q, s.nframes ≤ q → (s.frames q).state ≠ .free) :
    ∀ k o, o + k = pmmMaxOrder → 2 ^ o ∣ p → p + 2 ^ o ≤ s.nframes → AllFree s p o →
      growOrder s p k o ≤ pmmMaxOrder ∧ 2 ^ growOrder s p k o ∣ p ∧
        p + 2 ^ growOrder s p k o ≤ s.nframes ∧ AllFree s p (growOrder s p k o) ∧
        Largest s p (growOrder s p k o)
  | 0, o, hk, hal, hin, hf => ⟨by simp only [growOrder]; omega, hal, hin, hf,
      fun ho => absurd ho (by simp only [growOrder]; omega)⟩
  | k + 1, o, hk, hal, hin, hf => by
    have hpos := Nat.two_pow_pos o
    have hstop : ¬ (2 ^ (o + 1) ∣ p ∧ p + 2 ^ (o + 1) ≤ s.nframes ∧ AllFree s p (o + 1)) →
        o ≤ pmmMaxOrder ∧ 2 ^ o ∣ p ∧ p + 2 ^ o ≤ s.nframes ∧ AllFree s p o ∧ Largest s p o :=
      fun h => ⟨by omega, hal, hin, hf, fun _ h1 h2 h3 => h ⟨h1, h2, h3⟩⟩
    simp only [growOrder]
    split
    · rename_i h
      exact hstop fun h' => h (Nat.mod_eq_zero_of_dvd h'.1)
    · rename_i hd
      have hd : 2 ^ (o + 1) ∣ p := Nat.dvd_of_mod_eq_zero (by simpa using hd)
      have hwrap := block_no_wrap (o := o) (by omega) hd (by omega)
      split
      · rename_i hgt
        refine hstop fun h' => ?_
        rw [u32_of_lt (by omega)] at hgt
        omega
      · have hall : ((List.range (2 ^ (o + 1))).all
            fun j => (s.frames (u32 (p + j))).state == .free) = true ↔ AllFree s p (o + 1) := by
          rw [List.all_eq_true]
          constructor
          · intro h f hf
            rw [mem_block, Mem] at hf
            have := h (f - p) (List.mem_range.2 (by omega))
            rw [u32_of_lt (by omega), show p + (f - p) = f by omega] at this
            exact eq_of_beq this
          · intro h j hj
            have hj := List.mem_range.1 hj
            rw [u32_of_lt (by omega), h (p + j) (mem_block.2 ⟨by omega, by omega⟩)]
            rfl
        split
        · rename_i h
          have hfree := hall.1 h
          -- the sum `p + n` may have wrapped to 0, but no frame past the array is free
          have hle : p + 2 ^ (o + 1) ≤ s.nframes := by
            by_contra hgt
            exact hout s.nframes (Nat.le_refl _)
              (hfree s.nframes (mem_block.2 ⟨by omega, by omega⟩))
          exact growOrder_spec hn hout k (o + 1) (by omega) hd hle hfree
        · rename_i h
          exact hstop fun h' => h (hall.2 h'.2.2)

/-- The first `p` frames of the map `s₀` are built. -/
structure Built (s₀ s : Pmm) (p : Nat) : Prop where
  le : p ≤ s.nframes
  nframes : s.nframes = s₀.nframes
  inv : Inv { s with nframes := p } ∅ {f | f < p ∧ (s₀.frames f).state = .free} ∅
  rest : ∀ q, p ≤ q → s.frames q = s₀.frames q
  largest : ∀ q < p, (s.frames q).state = .free → Largest s₀ q (s.frames q).order

theorem Blank.built (h : Blank s) : Built s s 0 where
  le := Nat.zero_le _
  nframes := rfl
  inv := by
    have hno : ∀ K o p, ¬ Head { s with nframes := 0 } ∅ K o p := fun K o p hp =>
      absurd hp.lt (Nat.not_lt_zero p)
    refine ⟨Nat.two_pow_pos 32, h.base, ⟨by simp, fun K o p _ hp => absurd hp (hno K o p),
      fun q hq => absurd hq (Nat.not_lt_zero q)⟩, fun o _ => ⟨[], h.heads o, List.nodup_nil,
      fun p => by simp [hno]⟩, ?_, fun pa o => by simp [hno], fun f => by simp [hno],
      fun o p hp => absurd hp (hno _ _ _)⟩
    simp [h.pages, freeSum, freeHeads]
  rest _ _ := rfl
  largest q hq := absurd hq (Nat.not_lt_zero q)

theorem Inv.grow {L : Finset (Nat × Nat)} {F : Set Nat} {D : Finset Nat} (h : Inv s L F ∅)
    (hn : s.nframes ≤ n) (hsmall : n < 2 ^ 32) (hD : ∀ f ∈ D, s.nframes ≤ f ∧ f < n)
    (hres : ∀ q, s.nframes ≤ q → q < n → q ∉ D → (s.frames q).state = .reserved) :
    Inv { s with nframes := n, freePages := s.freePages + D.card } L (F ∪ D) D := by
  have hout : ∀ q < s.nframes, q ∉ D := fun q hq hq' => absurd (hD q hq').1 (by omega)
  have hH : ∀ K, K = Free ∨ K = Used → ∀ o p,
      Head { s with nframes := n, freePages := s.freePages + D.card } D K o p ↔
        Head s ∅ K o p := by
    intro K hK o p
    constructor
    · intro hp
      refine ⟨?_, notMem_empty p, hp.state, hp.order⟩
      by_contra hlt
      have h1 := hp.state
      rw [hres p (by omega) hp.lt hp.out] at h1
      rcases hK with rfl | rfl <;> simp [Free, Used] at h1
    · intro hp
      have := hp.lt
      exact ⟨by simp only; omega, hout p this, hp.state, hp.order⟩
  refine ⟨hsmall, h.base, ⟨fun f hf => (hD f hf).2, fun K o p hK hp => ?_, fun q hq hqD ht => ?_⟩,
    h.lists.congr rfl (fun _ _ _ => rfl) fun o _ p => hH Free (.inl rfl) o p, ?_, ?_, ?_, ?_⟩
  · obtain ⟨hw, -⟩ := h.shape.whole K o p hK ((hH K hK o p).1 hp)
    have hin := hw.inside
    refine ⟨⟨hw.order, hw.aligned, by simp only; omega, hw.tails⟩,
      disjoint_left.2 fun f hf hf' => ?_⟩
    rw [mem_block, Mem] at hf'
    exact hout f (by omega) hf
  · by_cases hlt : q < s.nframes
    · obtain ⟨K, o, p, hK, hp, hm⟩ := h.shape.cover q hlt (notMem_empty q) ht
      exact ⟨K, o, p, hK, (hH K hK o p).2 hp, hm⟩
    · have := hres q (by omega) hq hqD
      rw [show (s.frames q).state = .tail from ht] at this
      exact absurd this (by simp)
  · show s.freePages + D.card = _
    have hset : freeHeads { s with nframes := n, freePages := s.freePages + D.card } D =
        s.freeHeads ∅ := by
      ext p
      rw [mem_freeHeads, mem_freeHeads, hH Free (.inl rfl)]
    have hp := h.pages
    rw [card_empty, Nat.add_zero] at hp
    unfold freeSum
    rw [hset, hp]
    rfl
  · intro pa o
    simp only [h.live, hH Used (.inr rfl), physOf]
  · intro f
    rw [Set.mem_union, h.space]
    simp only [hH Free (.inl rfl), notMem_empty, false_or, mem_coe]
    exact or_comm
  · simpa only [hH Free (.inl rfl)] using h.maximal

theorem Built.skip (hb : Blank s0) (hsmall : s.nframes < 2 ^ 32) (h : Built s0 s p)
    (hp : p < s.nframes) (hst : (s.frames p).state ≠ .free) : Built s0 s (p + 1) := by
  have he := h.rest p (Nat.le_refl p)
  have hres : (s.frames p).state = .reserved := by
    rw [he] at hst ⊢
    exact (hb.state p).resolve_left hst
  have hspace : {f | f < p + 1 ∧ (s0.frames f).state = .free} =
      {f | f < p ∧ (s0.frames f).state = .free} ∪ ↑(∅ : Finset Nat) := by
    ext f
    rw [coe_empty, Set.union_empty]
    refine ⟨fun hf => ⟨?_, hf.2⟩, fun hf => ⟨Nat.lt_succ_of_lt hf.1, hf.2⟩⟩
    rcases Nat.lt_succ_iff_lt_or_eq.1 hf.1 with hlt | rfl
    · exact hlt
    · exact absurd hf.2 (he ▸ hst)
  refine ⟨hp, h.nframes, ?_, fun q hq => h.rest q (by omega), fun q hq hf => ?_⟩
  · rw [hspace]
    refine h.inv.grow (D := ∅) (Nat.le_succ p) (by omega) (by simp) fun q h1 h2 _ => ?_
    obtain rfl : q = p := Nat.le_antisymm (Nat.lt_succ_iff.1 h2) h1
    exact hres
  · rcases Nat.lt_succ_iff_lt_or_eq.1 hq with hlt | rfl
    · exact h.largest q hlt hf
    · exact absurd hf hst

/-- The buddy of the block that is built next is not one of the blocks built so far: with it,
the walk would have built their parent. -/
theorem Built.no_buddy (h : Built s0 s p) (ho : o < pmmMaxOrder) (hal : 2 ^ o ∣ p)
    (hin : p + 2 ^ o ≤ s.nframes) (hf : AllFree s p o) :
    buddy p o < p → ¬ Head { s with nframes := p } ∅ Free o (buddy p o) := by
  intro hlt hb
  obtain ⟨-, hd, hmax⟩ := buddy_spec hal
  rw [Nat.min_eq_right (by omega)] at hd hmax
  have horder : (s.frames (buddy p o)).order = o := hb.order
  have hlarge := h.largest _ hlt hb.state
  rw [horder] at hlarge
  have h2 : 2 ^ (o + 1) = 2 ^ o + 2 ^ o := by rw [pow_succ]; omega
  refine hlarge ho hd (by rw [← h.nframes]; omega) fun f hfb => ?_
  rw [mem_block, Mem] at hfb
  by_cases hfp : f < p
  · exact ((h.inv.space f).2 (.inr ⟨o, _, hb, mem_block.2 ⟨hfb.1, by omega⟩⟩)).2
  · rw [← h.rest f (by omega)]
    exact hf f (mem_block.2 ⟨by omega, by omega⟩)

theorem Built.push (hsmall : s.nframes < 2 ^ 32) (h : Built s0 s p) (ho : o ≤ pmmMaxOrder)
    (hal : 2 ^ o ∣ p) (hin : p + 2 ^ o ≤ s.nframes) (hf : AllFree s p o) (hl : Largest s p o) :
    Built s0 { (s.markBlock p o .free).listPush o p with
      freePages := u64 (((s.markBlock p o .free).listPush o p).freePages + 2 ^ o)
      totalAvail := n } (p + 2 ^ o) := by
  have hpos := Nat.two_pow_pos o
  obtain ⟨e1, e2, e3, e4⟩ := markBlock_rest s p o .free
  have hM := markBlock_marked hsmall ho hin .free
  -- the block's frames join the array, set aside
  have h1 := h.inv.grow (D := block p o) (n := p + 2 ^ o) (by simp only; omega) (by omega)
    (fun f hf => mem_block.1 hf) fun q h1 h2 hq => absurd (mem_block.2 ⟨h1, h2⟩) hq
  have hspace : {f | f < p ∧ (s0.frames f).state = .free} ∪ ↑(block p o) =
      {f | f < p + 2 ^ o ∧ (s0.frames f).state = .free} := by
    ext f
    simp only [Set.mem_union, Set.mem_ofPred_eq, mem_coe, mem_block, Mem]
    constructor
    · rintro (⟨h1, h2⟩ | h1)
      · exact ⟨by omega, h2⟩
      · rw [← h.rest f h1.1]
        exact ⟨h1.2, hf f (mem_block.2 h1)⟩
    · rintro ⟨h1, h2⟩
      by_cases hlt : f < p
      · exact .inl ⟨hlt, h2⟩
      · exact .inr ⟨by omega, h1⟩
  rw [hspace] at h1
  -- they are marked
  let s1 : Pmm := { s.markBlock p o .free with
    nframes := p + 2 ^ o
    freePages := u64 ((s.markBlock p o .free).freePages + 2 ^ o)
    totalAvail := n }
  have hfr : ∀ q, q ∉ block p o → s1.frames q = s.frames q := fun q hq =>
    markBlock_outside hsmall ho hin .free hq
  have hpages : u64 (s.freePages + 2 ^ o) = s.freePages + 2 ^ o := by
    have hle := h1.shape.freeSum_le
    have hp := h1.pages
    simp only [card_block] at hle hp
    exact u64_of_lt (by omega)
  have h2 : Inv s1 ∅ {f | f < p + 2 ^ o ∧ (s0.frames f).state = .free} (block p o) := by
    refine h1.congr rfl e2 ?_ e4 hfr
    show u64 ((s.markBlock p o .free).freePages + 2 ^ o) = s.freePages + (block p o).card
    rw [e3, hpages, card_block]
  have hM1 : Marked s1 p o .free := ⟨hM.state, hM.order, hM.tails⟩
  -- and go onto their list
  have h3 := h2.attach_free hM1 ho hal (Finset.Subset.refl _) fun hlt hb => by
    have hblt := hb.lt
    have hout := hb.out
    simp only [s1] at hblt
    rw [mem_block, Mem] at hout
    refine h.no_buddy hlt hal hin hf (by omega) ⟨by simp only; omega, notMem_empty _, ?_, ?_⟩
    · rw [← hfr _ hb.out]
      exact hb.state
    · rw [← hfr _ hb.out]
      exact hb.order
  rw [sdiff_self] at h3
  have hsame := listPush_same (s.markBlock p o .free) o p
  refine ⟨?_, ?_, h3, fun q hq => ?_, fun q hq hfree => ?_⟩
  · show p + 2 ^ o ≤ ((s.markBlock p o .free).listPush o p).nframes
    rw [hsame.nframes, e1]
    exact hin
  · show ((s.markBlock p o .free).listPush o p).nframes = _
    rw [hsame.nframes, e1]
    exact h.nframes
  · have hqb : q ∉ block p o := fun hm => by rw [mem_block, Mem] at hm; omega
    have hqp : q ≠ p := by omega
    show Function.update (s.markBlock p o .free).frames p _ q = _
    rw [Function.update_of_ne hqp, markBlock_outside hsmall ho hin .free hqb]
    exact h.rest q (by omega)
  · have hst : ((s.markBlock p o .free).frames q).state = .free := hsame.state q ▸ hfree
    show Largest s0 q (((s.markBlock p o .free).listPush o p).frames q).order
    rw [hsame.order]
    by_cases hqb : q ∈ block p o
    · have hqp : q = p := by
        rw [mem_block, Mem] at hqb
        by_contra hne
        rw [hM.tails q (by omega) hqb.2] at hst
        exact absurd hst (by simp)
      subst hqp
      rw [hM.order]
      intro h1 h2 h3 h4
      refine hl h1 h2 (h.nframes.symm ▸ h3) fun f hfb => ?_
      rw [h.rest f (mem_block.1 hfb).1]
      exact h4 f hfb
    · rw [markBlock_outside hsmall ho hin .free hqb] at hst ⊢
      refine h.largest q ?_ hst
      rw [mem_block, Mem] at hqb
      omega

theorem buildLists_spec (hb : Blank s0) (hsmall : s0.nframes < 2 ^ 32) :
    ∀ (k : Nat) (s : Pmm) (p : Nat), s.nframes - p < k → Built s0 s p →
      ∃ s', buildLists k s p = .ok s' ∧ s'.nframes = s0.nframes ∧ Built s0 s' s0.nframes
  | 0, _, _, hk, _ => absurd hk (Nat.not_lt_zero _)
  | k + 1, s, p, hk, h => by
    have hn := h.nframes
    unfold buildLists
    by_cases hp : p < s.nframes
    · rw [if_pos hp]
      by_cases hst : (s.frames p).state = .free
      · have hone : AllFree s p 0 := fun f hf => by
          rw [mem_block, Mem] at hf
          obtain rfl : f = p := by omega
          exact hst
        have hout : ∀ q, s.nframes ≤ q → (s.frames q).state ≠ .free := fun q hq => by
          rw [h.rest q (by omega)]
          exact hb.outside q (by omega)
        obtain ⟨h1, h2, h3, h4, h5⟩ := growOrder_spec (s := s) (by omega) hout (p := p)
          pmmMaxOrder 0 (by omega) (by simp) (by omega) hone
        have hpos := Nat.two_pow_pos (s.growOrder p pmmMaxOrder 0)
        rw [if_neg (by simp [hst])]
        simp only
        rw [u32_of_lt (by omega)]
        have hnext := h.push (n := u64 (((s.markBlock p (s.growOrder p pmmMaxOrder 0)
          .free).listPush (s.growOrder p pmmMaxOrder 0) p).totalAvail +
            2 ^ s.growOrder p pmmMaxOrder 0)) (by omega) h1 h2 h3 h4 h5
        refine buildLists_spec hb hsmall k _ _ ?_ hnext
        rw [hnext.nframes]
        omega
      · rw [if_pos hst, u32_of_lt (by omega)]
        exact buildLists_spec hb hsmall k _ _ (by omega) (h.skip hb (by omega) hp hst)
    · rw [if_neg hp]
      have hle := h.le
      obtain rfl : p = s0.nframes := by omega
      exact ⟨s, rfl, hn, h⟩

theorem pmmInit_returns (h : initFrames t map kphys ksize = .ok s) (hs : s.nframes < 2 ^ 32) :
    ∃ s', pmmInit t map kphys ksize = .ok s' ∧ s'.nframes = s.nframes ∧
      Inv s' ∅ {f | f < s.nframes ∧ (s.frames f).state = .free} ∅ := by
  have hb := initFrames_blank h
  obtain ⟨s', he, hn, hB⟩ := buildLists_spec hb hs (s.nframes + 1) s 0 (by omega) hb.built
  refine ⟨s', ?_, hn, ?_⟩
  · rw [pmmInit, h]
    exact he
  · rw [← hn] at hB ⊢
    exact hB.inv

theorem buildLists_nframes : ∀ (k : Nat) (s : Pmm) (p : Nat) {s' : Pmm},
    buildLists k s p = .ok s' → s'.nframes = s.nframes
  | 0, _, _, _, h => by cases h
  | k + 1, s, p, s', h => by
    unfold buildLists at h
    split at h
    · split at h
      · exact buildLists_nframes k _ _ h
      · dsimp only at h
        rw [buildLists_nframes k _ _ h]
        exact (markBlock_rest s p (s.growOrder p pmmMaxOrder 0) .free).1
    · cases h
      rfl

theorem pmmInit_inv (h : pmmInit t map kphys ksize = .ok s) (hs : s.nframes < 2 ^ 32) :
    ∃ F, Inv s ∅ F ∅ := by
  cases hi : initFrames t map kphys ksize with
  | panic m => simp [pmmInit, hi] at h
  | diverge => simp [pmmInit, hi] at h
  | fault => simp [pmmInit, hi] at h
  | ok s1 =>
    have hn : s.nframes = s1.nframes := by
      simp only [pmmInit, hi, Outcome.ok_bind] at h
      exact buildLists_nframes _ _ _ h
    obtain ⟨s', he, -, hI⟩ := pmmInit_returns hi (by omega)
    rw [h] at he
    cases he
    exact ⟨_, hI⟩

end Aegis.Pmm
