import Aegis.Mm.Proof.PmmOps
import Aegis.Mm.Proof.PmmInit

/-!
# Runs of the buddy allocator

`pmmStep_inv`: every step the callers may take returns and keeps the invariant. From it,
`pmm_run_buddyInv` (the representation invariant holds after every run) and `pmm_coalesced` (the
free blocks are the canonical decomposition of the free frames, so they do not depend on the order
of the frees that led to them).
-/

namespace Aegis

open Chain Dyadic Finset

namespace Pmm

section
variable {s : Pmm} {L : Finset (Nat × Nat)} {F : Set Nat}
variable {o p : Nat}

theorem mem_freeBlocks : (p, o) ∈ s.freeBlocks ↔ Head s ∅ Free o p :=
  ⟨fun h => ⟨h.1, notMem_empty p, h.2.1, h.2.2⟩, fun h => ⟨h.lt, h.state, h.order⟩⟩

section
variable (h : Inv s L F ∅)
include h

theorem Inv.mem_liveBlocks : (p, o) ∈ s.liveBlocks L ↔ Head s ∅ Used o p := by
  have hpfn : ∀ q < s.nframes, s.pfnOf (s.physOf q) = q := fun q hq =>
    pfnOf_physOf h.base.1 (by have := h.small; omega)
  constructor
  · rintro ⟨⟨pa, r⟩, hx, he⟩
    obtain ⟨q, hq, rfl⟩ := (h.live pa r).1 hx
    rw [Prod.mk.injEq, hpfn q hq.lt] at he
    obtain ⟨rfl, rfl⟩ := he
    exact hq
  · intro hp
    exact ⟨(s.physOf p, o), (h.live _ _).2 ⟨p, hp, rfl⟩, by rw [hpfn p hp.lt]⟩

theorem Inv.mem_blocks (hb : (p, o) ∈ s.freeBlocks ∪ s.liveBlocks L) :
    ∃ K, (K = Free ∨ K = Used) ∧ Head s ∅ K o p := by
  rcases hb with hb | hb
  · exact ⟨Free, .inl rfl, mem_freeBlocks.1 hb⟩
  · exact ⟨Used, .inr rfl, h.mem_liveBlocks.1 hb⟩

theorem Inv.cover_freeBlocks : cover s.freeBlocks = F := by
  ext f
  rw [h.space]
  simp only [notMem_empty, false_or]
  constructor
  · rintro ⟨⟨p, o⟩, hb, hf⟩
    exact ⟨o, p, mem_freeBlocks.1 hb, mem_block.2 hf⟩
  · rintro ⟨o, p, hp, hf⟩
    exact ⟨(p, o), mem_freeBlocks.2 hp, mem_block.1 hf⟩

theorem Inv.cover_eq_freeFrames : cover s.freeBlocks = ↑(s.freeFrames ∅) := by
  rw [h.cover_freeBlocks]
  ext f
  rw [h.space, mem_coe, freeFrames, mem_biUnion]
  simp only [notMem_empty, false_or]
  constructor
  · rintro ⟨o, p, hp, hf⟩
    exact ⟨p, mem_freeHeads.2 (hp.order.symm ▸ hp), hp.order.symm ▸ hf⟩
  · rintro ⟨p, hp, hf⟩
    exact ⟨_, p, mem_freeHeads.1 hp, hf⟩

theorem Inv.canonical : Canonical pmmMaxOrder s.freeBlocks where
  order b hb := (h.shape.whole Free _ _ (.inl rfl) (mem_freeBlocks.1 hb)).1.order
  aligned b hb := (h.shape.whole Free _ _ (.inl rfl) (mem_freeBlocks.1 hb)).1.aligned
  disjoint b hb c hc f hf hf' := by
    obtain ⟨h1, h2⟩ := h.shape.eq_of_mem (.inl rfl) (.inl rfl) (mem_freeBlocks.1 hb)
      (mem_freeBlocks.1 hc) (mem_block.2 hf) (mem_block.2 hf')
    exact Prod.ext h1 h2
  maximal b hb ho hb' := h.maximal _ _ (mem_freeBlocks.1 hb) ho (mem_freeBlocks.1 hb')

theorem Inv.buddyInv : BuddyInv ⟨s, L⟩ where
  lists o ho := by
    obtain ⟨l, hl, hnd, hm⟩ := h.lists o ho
    exact ⟨l, hl, hnd, fun p => by rw [hm, mem_freeBlocks]⟩
  free b hb := (h.shape.whole Free _ _ (.inl rfl) (mem_freeBlocks.1 hb)).1
  live b hb :=
    let hp := h.mem_liveBlocks.1 hb
    ⟨(h.shape.whole Used _ _ (.inr rfl) hp).1, hp.state⟩
  cover f hf := by
    have hhead : ∀ K, K = Free ∨ K = Used → ∀ o p, Head s ∅ K o p → Mem f p o →
        f ∈ cover s.freeBlocks ∨ f ∈ cover (s.liveBlocks L) := by
      rintro K (rfl | rfl) o p hp hm
      · exact .inl ⟨(p, o), mem_freeBlocks.2 hp, hm⟩
      · exact .inr ⟨(p, o), h.mem_liveBlocks.2 hp, hm⟩
    have hown : ∀ K, K = Free ∨ K = Used → K (s.frames f).state →
        f ∈ cover s.freeBlocks ∨ f ∈ cover (s.liveBlocks L) := fun K hK hst =>
      hhead K hK _ f ⟨hf, notMem_empty f, hst, rfl⟩ (mem_self f _)
    cases hst : (s.frames f).state with
    | reserved => exact .inl rfl
    | free => exact .inr (hown Free (.inl rfl) hst)
    | kernel => exact .inr (hown Used (.inr rfl) (.inl hst))
    | user => exact .inr (hown Used (.inr rfl) (.inr hst))
    | tail =>
      obtain ⟨K, o, p, hK, hp, hm⟩ := h.shape.cover f hf (notMem_empty f) hst
      exact .inr (hhead K hK o p hp (mem_block.1 hm))
  disjoint b hb c hc f hf hf' := by
    obtain ⟨K, hK, hp⟩ := h.mem_blocks hb
    obtain ⟨K', hK', hp'⟩ := h.mem_blocks hc
    obtain ⟨h1, h2⟩ := h.shape.eq_of_mem hK hK' hp hp' (mem_block.2 hf) (mem_block.2 hf')
    exact Prod.ext h1 h2
  free_live := by
    refine Set.disjoint_left.2 fun b hb hb' => ?_
    have h1 := hb.2.1
    have h2 := (h.mem_liveBlocks.1 hb').state
    rw [h1] at h2
    simp [Used] at h2
  reserved b hb f hf hr := by
    obtain ⟨K, hK, hp⟩ := h.mem_blocks hb
    have hw := (h.shape.whole K _ _ hK hp).1
    rcases Nat.eq_or_lt_of_le hf.1 with he | hlt
    · have h1 := hp.state
      rw [he, hr] at h1
      rcases hK with rfl | rfl <;> simp [Free, Used] at h1
    · rw [hw.tails f hlt hf.2] at hr
      simp at hr
  pages := by
    rw [h.cover_eq_freeFrames, Set.ncard_coe_finset, ← h.shape.freeSum_eq, h.pages,
      card_empty, Nat.add_zero]

end

end

end Pmm

open Pmm

section
variable {s : PmmState} {F : Set Nat}

/-! ## Steps -/

theorem pmmStep_free (h : Inv s.pmm s.live F ∅) {pa o : Nat} (hb : (pa, o) ∈ s.live) :
    ∃ s', pmmStep s (.free pa o) = some s' ∧ s'.pmm.ram = s.pmm.ram ∧
      s'.live = s.live.erase (pa, o) ∧ Inv s'.pmm s'.live (F ∪ block (s.pmm.pfnOf pa) o) ∅ := by
  obtain ⟨p, hp, rfl⟩ := (h.live pa o).1 hb
  obtain ⟨s', he, hram, hI⟩ := pmmFree_spec h hp
  refine ⟨⟨s', s.live.erase (s.pmm.physOf p, o)⟩, ?_, hram, rfl, ?_⟩
  · simp [pmmStep, he]
  · rw [pfnOf_physOf h.base.1 (by have := h.small; have := hp.lt; omega)]
    exact hI

theorem pmmStep_inv (h : Inv s.pmm s.live F ∅) {op : PmmOp}
    (hok : ∀ pa o, op = .free pa o → (pa, o) ∈ s.live) :
    ∃ s', pmmStep s op = some s' ∧ ∃ F', Inv s'.pmm s'.live F' ∅ := by
  cases op with
  | free pa o =>
    obtain ⟨s', he, -, -, hI⟩ := pmmStep_free h (hok pa o rfl)
    exact ⟨s', he, _, hI⟩
  | alloc order flags =>
    rcases pmmAlloc_spec h order flags with ⟨he, -⟩ | ⟨s', p, he, -, -, hI⟩
    · exact ⟨⟨s.pmm, s.live⟩, by simp [pmmStep, he], F, h⟩
    · have hne := physOf_ne_invalid h.base.2 p
      exact ⟨⟨s', insert (s.pmm.physOf p, order) s.live⟩, by simp [pmmStep, he, hne], _, hI⟩

theorem pmm_run_inv {s0 : Pmm} {ops : List PmmOp} {t : Target} {map : List MmapEntry}
    {kphys ksize : Nat} (h0 : pmmInit t map kphys ksize = .ok s0) (hn : s0.nframes < 2 ^ 31)
    (hl : Run.Legal pmmStep PmmOk ⟨s0, ∅⟩ ops) :
    ∃ s, Run.run pmmStep ⟨s0, ∅⟩ ops = some s ∧ ∃ F, Inv s.pmm s.live F ∅ :=
  Run.run_inv (I := fun s => ∃ F, Inv s.pmm s.live F ∅)
    (fun _ _ ⟨_, hI⟩ hok => pmmStep_inv hI fun _ _ e => by subst e; exact hok)
    (pmmInit_inv h0 (by omega)) hl

theorem PmmReach.inv (h : PmmReach s) : ∃ F, Inv s.pmm s.live F ∅ := by
  obtain ⟨t, map, kphys, ksize, s0, ops, h0, hn, hl, hr⟩ := h
  obtain ⟨s', hr', hI⟩ := pmm_run_inv h0 hn hl
  rw [hr] at hr'
  cases hr'
  exact hI

theorem run_frees : ∀ (l : List (Nat × Nat)) (s : PmmState) {F : Set Nat},
    Inv s.pmm s.live F ∅ → l.Nodup → (∀ b ∈ l, b ∈ s.live) →
    ∃ s', Run.run pmmStep s (l.map fun b => .free b.1 b.2) = some s' ∧
      Inv s'.pmm s'.live (F ∪ {f | ∃ b ∈ l, f ∈ block (s.pmm.pfnOf b.1) b.2}) ∅
  | [], s, F, h, _, _ => ⟨s, rfl, by simpa using h⟩
  | b :: l, s, F, h, hnd, hl => by
    obtain ⟨hb, hnd⟩ := List.nodup_cons.1 hnd
    obtain ⟨s1, he, hram, hlive, hI⟩ := pmmStep_free h (hl b (by simp))
    have hl1 : ∀ c ∈ l, c ∈ s1.live := fun c hc => by
      rw [hlive]
      refine mem_erase.2 ⟨fun e => hb ?_, hl c (by simp [hc])⟩
      rw [e] at hc
      exact hc
    obtain ⟨s2, hr, hI2⟩ := run_frees l s1 hI hnd hl1
    have hpfn : s1.pmm.pfnOf = s.pmm.pfnOf := by
      funext pa
      rw [Pmm.ram, Pmm.ram, Prod.mk.injEq] at hram
      simp [pfnOf, hram.2]
    refine ⟨s2, by rw [List.map_cons, Run.run_cons he, hr], ?_⟩
    rw [hpfn, Set.union_assoc] at hI2
    convert hI2 using 2
    ext f
    simp

/-! ## The runs of the callers -/

/-- **The representation invariant holds after every run**, and no run gets stuck. -/
theorem pmm_run_buddyInv {t : Target} {map : List MmapEntry} {kphys ksize : Nat} {s₀ : Pmm}
    (h0 : pmmInit t map kphys ksize = .ok s₀) (hn : s₀.nframes < 2 ^ 31) {ops : List PmmOp}
    (hl : Run.Legal pmmStep PmmOk ⟨s₀, ∅⟩ ops) :
    ∃ s, Run.run pmmStep ⟨s₀, ∅⟩ ops = some s ∧ BuddyInv s := by
  obtain ⟨s, hr, F, hI⟩ := pmm_run_inv h0 hn hl
  exact ⟨s, hr, hI.buddyInv⟩

theorem pmmInit_host : ∃ s0, pmmInit (.host 4096) [⟨0, 0x1000000, 1⟩] 0 0 = .ok s0 ∧
    s0.nframes = 4096 := by
  have hf : initFrames (.host 4096) [⟨0, 0x1000000, 1⟩] 0 0 = _ := rfl
  obtain ⟨s0, he, hn, -⟩ := pmmInit_returns hf (by decide)
  exact ⟨s0, he, hn⟩

theorem pmm_run_buddyInv_host : ∃ s₀ s, pmmInit (.host 4096) [⟨0, 0x1000000, 1⟩] 0 0 = .ok s₀ ∧
    Run.run pmmStep ⟨s₀, ∅⟩ [.alloc 0 0, .alloc 3 pmmUser] = some s ∧ BuddyInv s := by
  obtain ⟨s₀, h0, hn⟩ := pmmInit_host
  have hl : Run.Legal pmmStep PmmOk ⟨s₀, ∅⟩ [.alloc 0 0, .alloc 3 pmmUser] :=
    ⟨by simp [PmmOk], fun _ _ => ⟨by simp [PmmOk, pmmMaxOrder], fun _ _ => trivial⟩⟩
  obtain ⟨s, hr, hs⟩ := pmm_run_buddyInv h0 (by omega) hl
  exact ⟨s₀, s, h0, hr, hs⟩

/-- **The free blocks are the canonical decomposition of the free frames**: no two of them are
buddies, the free frames determine them, an allocation and its free restore them, and the order of
frees does not matter. -/
theorem pmm_coalesced (h : PmmReach s) :
    (∀ p o, (p, o) ∈ s.pmm.freeBlocks → o < pmmMaxOrder →
      (buddy p o, o) ∉ s.pmm.freeBlocks) ∧
    (∀ s', PmmReach s' → cover s'.pmm.freeBlocks = cover s.pmm.freeBlocks →
      s'.pmm.freeBlocks = s.pmm.freeBlocks) ∧
    (∀ order flags, (s.pmm.pmmAlloc order flags).2 ≠ pmmInvalid →
      ∃ s', (s.pmm.pmmAlloc order flags).1.pmmFree (s.pmm.pmmAlloc order flags).2 order = .ok s' ∧
        s'.freeBlocks = s.pmm.freeBlocks) ∧
    (∀ l l' : List (Nat × Nat), l.Nodup → l'.Nodup → (∀ b, b ∈ l ↔ b ∈ l') →
      (∀ b ∈ l, b ∈ s.live) →
      ∃ s₁ s₂, Run.run pmmStep s (l.map fun b => .free b.1 b.2) = some s₁ ∧
        Run.run pmmStep s (l'.map fun b => .free b.1 b.2) = some s₂ ∧
        s₁.pmm.freeBlocks = s₂.pmm.freeBlocks) := by
  obtain ⟨F, hI⟩ := h.inv
  have hcan := hI.canonical
  refine ⟨fun p o hp ho => hcan.maximal (p, o) hp ho, fun s' h' he => ?_, fun order flags hne => ?_,
    fun l l' hnd hnd' hll hl => ?_⟩
  · obtain ⟨F', hI'⟩ := h'.inv
    exact hI'.canonical.ext hcan he
  · rcases pmmAlloc_spec hI order flags with ⟨he, -⟩ | ⟨s₁, p, he, hram, hF, hI1⟩
    · rw [he] at hne
      exact absurd rfl hne
    · obtain ⟨p', hp', hphys⟩ := (hI1.live (s.pmm.physOf p) order).1 (mem_insert_self _ _)
      obtain ⟨s₂, he2, -, hI2⟩ := pmmFree_spec hI1 hp'
      have hsmall := hI1.small
      have hlt := hp'.lt
      have hpp : p' = p := by
        have hpl : p < s.pmm.nframes := by
          have := hF (mem_block.2 (mem_self p order))
          obtain hf | ⟨o, q, hq, hf⟩ := (hI.space p).1 this
          · exact absurd hf (notMem_empty p)
          · have := (hI.shape.whole Free o q (.inl rfl) hq).1.inside
            rw [mem_block, Mem] at hf
            omega
        rw [← physOf_ram hram] at hphys
        refine (physOf_inj hI1.base.1 ?_ (by omega) hphys).symm
        have := hI.small
        omega
      subst hpp
      rw [he]
      refine ⟨s₂, hphys ▸ he2, hI2.canonical.ext hcan ?_⟩
      rw [hI2.cover_freeBlocks, hI.cover_freeBlocks]
      exact Set.sdiff_union_of_subset hF
  · obtain ⟨s₁, hr1, hI1⟩ := run_frees l s hI hnd hl
    obtain ⟨s₂, hr2, hI2⟩ := run_frees l' s hI hnd' fun b hb => hl b ((hll b).2 hb)
    refine ⟨s₁, s₂, hr1, hr2, hI1.canonical.ext hI2.canonical ?_⟩
    rw [hI1.cover_freeBlocks, hI2.cover_freeBlocks]
    simp only [hll]

theorem pmm_coalesced_host : ∃ s : PmmState, PmmReach s ∧
    ∀ p o, (p, o) ∈ s.pmm.freeBlocks → o < pmmMaxOrder → (buddy p o, o) ∉ s.pmm.freeBlocks := by
  obtain ⟨s0, h0, hn⟩ := pmmInit_host
  have hr : PmmReach ⟨s0, ∅⟩ := ⟨_, _, _, _, s0, [], h0, by omega, trivial, rfl⟩
  exact ⟨_, hr, (pmm_coalesced hr).1⟩

end

end Aegis
