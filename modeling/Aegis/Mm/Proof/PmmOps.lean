import Aegis.Mm.Proof.PmmInv

/-!
# `pmm_alloc` and `pmm_free` keep the buddy invariant

`pmmAlloc_spec`: an allocation fails and changes nothing, or returns the address of a block that
was free and is live now. `pmmFree_spec`: freeing a live block with the order it was allocated at
returns, and the block's frames are free.
-/

namespace Aegis.Pmm

open Chain Dyadic Finset

section
variable {s : Pmm} {L : Finset (Nat × Nat)} {F : Set Nat}
variable {order p : Nat} {s' : Pmm}

/-! ## Allocation -/

theorem findOrder_spec : ∀ (k o : Nat), o + k = pmmMaxOrder + 1 → o ≤ s.findOrder k o ∧
      (s.findOrder k o ≤ pmmMaxOrder → s.freeHead (s.findOrder k o) ≠ pfnNil) ∧
      ∀ r, o ≤ r → r < s.findOrder k o → s.freeHead r = pfnNil
  | 0, o, hk => ⟨Nat.le_refl o, fun h => absurd h (by simp only [findOrder]; omega),
      fun r h1 h2 => absurd h2 (by simp only [findOrder]; omega)⟩
  | k + 1, o, hk => by
    obtain ⟨h1, h2, h3⟩ := findOrder_spec k (o + 1) (by omega)
    unfold findOrder
    split
    · rename_i h
      refine ⟨by omega, h2, fun r hr hr' => ?_⟩
      rcases Nat.eq_or_lt_of_le hr with rfl | hr
      · exact h.2
      · exact h3 r hr hr'
    · rename_i h
      refine ⟨Nat.le_refl o, fun ho hn => h ⟨ho, hn⟩, fun r h1 h2 => ?_⟩
      omega

/-- The split loop gives back the upper halves and keeps the block it was asked for. -/
theorem splitLoop_inv : ∀ (k : Nat) (s : Pmm), order + k ≤ pmmMaxOrder →
    2 ^ (order + k) ∣ p → Inv s L F (block p (order + k)) →
    Inv (splitLoop p order k s) L F (block p order)
  | 0, _, _, _, h => h
  | k + 1, s, ho, hal, h => by
    have ho' : order + k < pmmMaxOrder := by omega
    have hal' : 2 ^ (order + k + 1) ∣ p := hal
    have hd : 2 ^ (order + k) ∣ p := (Nat.pow_dvd_pow 2 (by omega)).trans hal'
    obtain ⟨hsub, hrest⟩ := block_upper p (order + k)
    have hin := h.shape.inside (o := order + k + 1) (p := p) (Finset.Subset.refl _)
    have hu : u32 (p + 2 ^ (order + k)) = p + 2 ^ (order + k) := by
      have := h.small
      rw [pow_succ] at hin
      exact u32_of_lt (by omega)
    simp only [splitLoop, hu]
    refine splitLoop_inv k _ (by omega) hd ?_
    -- the upper half goes onto its list: its buddy is still set aside
    obtain ⟨h1, hM⟩ := h.mark (by omega) hsub .free
    have hb : buddy (p + 2 ^ (order + k)) (order + k) = p := by
      rw [← buddy_of_dvd hal', buddy_buddy]
    have h2 := h1.attach_free hM (by omega) (Nat.dvd_add hd (Nat.dvd_refl _)) hsub fun _ hh => by
      rw [hb] at hh
      exact hh.out (mem_block.2 (mem_self p _))
    have h3 : Inv _ L F (block p (order + k)) := hrest ▸ h2
    exact (h3.mark (by omega) (Finset.Subset.refl _) .free).1

/-- The memory the allocator manages: its size and where it starts. -/
def ram (s : Pmm) : Nat × Nat := (s.nframes, s.physBase)

theorem SameFrames.ram (h : SameFrames s s') : s'.ram = s.ram := by
  simp [Pmm.ram, h.nframes, h.physBase]

theorem ram_freePages (s : Pmm) (n : Nat) : ({ s with freePages := n } : Pmm).ram = s.ram := rfl

theorem physOf_ram (h : s'.ram = s.ram) (p : Nat) : s'.physOf p = s.physOf p := by
  rw [Pmm.ram, Pmm.ram, Prod.mk.injEq] at h
  simp [physOf, h.2]

@[simp] theorem markBlock_ram (s : Pmm) (p o : Nat) (st : FrameState) :
    (s.markBlock p o st).ram = s.ram := by
  obtain ⟨h1, h2, -⟩ := markBlock_rest s p o st
  simp [ram, h1, h2]

@[simp] theorem splitLoop_ram (p order : Nat) : ∀ (k : Nat) (s : Pmm),
    (splitLoop p order k s).ram = s.ram
  | 0, _ => rfl
  | k + 1, s => by
    rw [splitLoop, splitLoop_ram p order k, markBlock_ram, (listPush_same _ _ _).ram,
      markBlock_ram]

theorem alloc_from {k : Nat} {st : FrameState} (h : Inv s L F ∅) (ho : order + k ≤ pmmMaxOrder)
    (hne : s.freeHead (order + k) ≠ pfnNil) (hst : Used st) : let p := s.freeHead (order + k)
    let s1 := (splitLoop p order k (s.listPop (order + k)).1).markBlock p order st
    ({ s1 with freePages := sub64 s1.freePages (2 ^ order) } : Pmm).ram = s.ram ∧
      ↑(block p order) ⊆ F ∧
      Inv { s1 with freePages := sub64 s1.freePages (2 ^ order) } (insert (s.physOf p, order) L)
        (F \ block p order) ∅ := by
  intro p s1
  have hp : Head s ∅ Free (order + k) p := h.lists.head_mem ho hne
  obtain ⟨hw, -⟩ := h.shape.whole Free _ p (.inl rfl) hp
  obtain ⟨-, hs, hl⟩ := h.lists.pop (fun o o' q h1 h2 => h1.order.symm.trans h2.order) ho hne
  have hram : s1.ram = s.ram := by rw [markBlock_ram, splitLoop_ram, hs.ram]
  have hsub : block p order ⊆ block p (order + k) := by
    intro f hf
    rw [mem_block, Mem] at hf ⊢
    have := Nat.pow_le_pow_right (show 0 < 2 by decide) (show order ≤ order + k by omega)
    omega
  -- the popped block is set aside, split, and the lowest part goes into use
  have h1 := h.detach_free hp hs hl
  rw [empty_union] at h1
  have h2 := splitLoop_inv k _ ho hw.aligned h1
  obtain ⟨h3, hM⟩ := h2.mark (p := p) (o := order) (by omega) (Finset.Subset.refl _) st
  have h4 := h3.attach_used hM hst (by omega)
    ((Nat.pow_dvd_pow 2 (by omega)).trans hw.aligned) (Finset.Subset.refl _) rfl
  rw [sdiff_self, physOf_ram hram] at h4
  exact ⟨(ram_freePages _ _).trans hram, fun f hf => (h.space f).2 (.inr ⟨_, p, hp, hsub hf⟩), h4⟩

/-- `pmm_alloc` fails with nothing changed, when no block is large enough; or it returns the
address of a block of free frames, which is live from then on. -/
theorem pmmAlloc_spec (h : Inv s L F ∅) (order : Nat) (flags : BitVec 32) :
    (s.pmmAlloc order flags = (s, pmmInvalid) ∧
        (order ≤ pmmMaxOrder → ∀ r p, order ≤ r → ¬ Head s ∅ Free r p)) ∨
      ∃ s' p, s.pmmAlloc order flags = (s', s.physOf p) ∧ s'.ram = s.ram ∧
        ↑(block p order) ⊆ F ∧ Inv s' (insert (s.physOf p, order) L) (F \ block p order) ∅ := by
  unfold pmmAlloc
  by_cases ho : order > pmmMaxOrder
  · exact .inl ⟨by rw [if_pos ho], fun h => absurd h (by omega)⟩
  rw [if_neg ho]
  obtain ⟨hle, hne, hnone⟩ :=
    findOrder_spec (s := s) (pmmMaxOrder + 1 - order) order (by omega)
  generalize s.findOrder (pmmMaxOrder + 1 - order) order = o at hle hne hnone
  dsimp only
  by_cases hmax : o > pmmMaxOrder
  · refine .inl ⟨by rw [if_pos hmax], fun _ r p hr hp => ?_⟩
    have hrm := (h.shape.whole Free r p (.inl rfl) hp).1.order
    obtain ⟨l, hl, -, hm⟩ := h.lists r hrm
    have hnil : l = [] := (linked_nil_iff hl).1 (hnone r hr (by omega))
    have := (hm p).2 hp
    rw [hnil] at this
    simp at this
  · obtain ⟨k, rfl⟩ := Nat.exists_eq_add_of_le hle
    have hst : Used (if flags &&& pmmUser ≠ 0 then FrameState.user else .kernel) := by
      split
      · exact .inr rfl
      · exact .inl rfl
    obtain ⟨hram, hF, hI⟩ := alloc_from h (by omega) (hne (by omega)) hst
    have hpop : (s.listPop (order + k)).2 = s.freeHead (order + k) := by
      simp [listPop, hne (by omega)]
    refine .inr ⟨_, s.freeHead (order + k), ?_, hram, hF, hI⟩
    rw [if_neg hmax, hpop, Nat.add_sub_cancel_left]
    exact Prod.ext rfl (physOf_ram hram _)

/-! ## Freeing -/

/-- The merge loop stops at a block whose buddy is not a free block of its order. -/
theorem mergeLoop_spec : ∀ (k : Nat) (s : Pmm) (p o : Nat), o + k = pmmMaxOrder → 2 ^ o ∣ p →
    Inv s L F (block p o) → Marked s p o .free →
    ∃ s' p' o', mergeLoop k s p o = .ok (s', p', o') ∧ s'.ram = s.ram ∧ o' ≤ pmmMaxOrder ∧
      2 ^ o' ∣ p' ∧ Inv s' L F (block p' o') ∧ Marked s' p' o' .free ∧
      (o' < pmmMaxOrder → ¬ Head s' (block p' o') Free o' (buddy p' o'))
  | 0, s, p, o, hk, hal, h, hM =>
    ⟨s, p, o, rfl, rfl, by omega, hal, h, hM, fun ho => absurd ho (by omega)⟩
  | k + 1, s, p, o, hk, hal, h, hM => by
    have hstop : ¬ Head s (block p o) Free o (buddy p o) →
        ∃ s' p' o', (Outcome.ok (s, p, o) : Outcome (Pmm × Nat × Nat)) = .ok (s', p', o') ∧
          s'.ram = s.ram ∧ o' ≤ pmmMaxOrder ∧ 2 ^ o' ∣ p' ∧ Inv s' L F (block p' o') ∧
          Marked s' p' o' .free ∧
          (o' < pmmMaxOrder → ¬ Head s' (block p' o') Free o' (buddy p' o')) := fun hb =>
      ⟨s, p, o, rfl, rfl, by omega, hal, h, hM, fun _ => hb⟩
    simp only [mergeLoop]
    split
    · rename_i hok
      refine hstop fun hb => hok ?_
      simp [pfnOk, hb.lt, ← show buddy p o = p ^^^ 2 ^ o from rfl]
    · rename_i hok
      split
      · rename_i hst
        exact hstop fun hb => hst.elim (fun e => e hb.state) fun e => e hb.order
      · rename_i hst
        rw [not_or, not_not, not_not] at hst
        have hb : Head s (block p o) Free o (buddy p o) :=
          ⟨by simpa [pfnOk, buddy] using hok, fun hm => disjoint_left.1 (block_disjoint_buddy hal)
            hm (mem_block.2 (mem_self _ _)), hst.1, hst.2⟩
        -- the buddy leaves its list, and the two make up a block of the next order
        obtain ⟨s1, hr, hs, hl⟩ := h.lists.remove
          (fun o o' q h1 h2 => h1.order.symm.trans h2.order) (fun o q hq => hq.lt) (by omega) hb
        have h1 := h.detach_free hb hs hl
        rw [block_union_buddy hal] at h1
        have hmin : (if p ^^^ 2 ^ o < p then p ^^^ 2 ^ o else p) = min p (buddy p o) := by
          show (if buddy p o < p then buddy p o else p) = _
          split <;> omega
        obtain ⟨h2, hM2⟩ := h1.mark (p := min p (buddy p o)) (o := o + 1) (by omega)
          (Finset.Subset.refl _) .free
        obtain ⟨s', p', o', he, hram, hrest⟩ := mergeLoop_spec k _ (min p (buddy p o)) (o + 1)
          (by omega) (buddy_spec hal).2.1 h2 hM2
        have hr' : s.listRemove o (p ^^^ 2 ^ o) = .ok s1 := hr
        refine ⟨s', p', o', ?_, ?_, hrest⟩
        · rw [hr', hmin]
          exact he
        · rw [hram, markBlock_ram, hs.ram]

/-- `pmm_free` of a live block returns, and the block's frames are free. -/
theorem pmmFree_spec (h : Inv s L F ∅) {o : Nat} (hp : Head s ∅ Used o p) :
    ∃ s', s.pmmFree (s.physOf p) o = .ok s' ∧ s'.ram = s.ram ∧
      Inv s' (L.erase (s.physOf p, o)) (F ∪ block p o) ∅ := by
  obtain ⟨hw, -⟩ := h.shape.whole Used o p (.inr rfl) hp
  have hsmall := h.small
  have hlt := hp.lt
  have hpfn : s.pfnOf (s.physOf p) = p := pfnOf_physOf h.base.1 (by omega)
  have hguard : ¬ (s.physOf p = pmmInvalid ∨ o > pmmMaxOrder) := by
    rintro (e | e)
    · exact physOf_ne_invalid h.base.2 p e
    · exact absurd hw.order (by omega)
  have hstate : ¬ (¬ s.pfnOk p ∨ (s.frames p).state = .free ∨ (s.frames p).state = .tail ∨
      (s.frames p).state = .reserved) := by
    have hok : s.pfnOk p := by simp [pfnOk, hlt]
    rcases hp.state with e | e <;> simp [hok, e]
  -- the block is set aside and counted, marked, merged and pushed
  have h1 := h.detach_used hp rfl
  rw [empty_union] at h1
  obtain ⟨e1, e2, e3, e4⟩ := markBlock_rest s p o .free
  let s1 : Pmm := { s.markBlock p o .free with
    freePages := u64 ((s.markBlock p o .free).freePages + 2 ^ o) }
  have h2 : Inv s1 (L.erase (s.physOf p, o)) (F ∪ block p o) (block p o) :=
    h1.congr e1 e2 (by simp only [s1, e3]) e4
      fun q hq => markBlock_outside h.small hw.order hw.inside .free hq
  have hM : Marked s1 p o .free :=
    let hm := markBlock_marked h.small hw.order hw.inside .free
    ⟨hm.state, hm.order, hm.tails⟩
  obtain ⟨s', p', o', he, hram, ho', hal', h3, hM', hmax⟩ :=
    mergeLoop_spec (pmmMaxOrder - o) s1 p o (by have := hw.order; omega) hw.aligned h2 hM
  have h4 := h3.attach_free hM' ho' hal' (Finset.Subset.refl _) hmax
  rw [sdiff_self] at h4
  refine ⟨s'.listPush o' p', ?_, ?_, h4⟩
  · simp only [pmmFree, hpfn]
    rw [if_neg hguard, if_neg hstate, he]
    rfl
  · rw [(listPush_same _ _ _).ram, hram]
    exact markBlock_ram s p o .free

end

end Aegis.Pmm
