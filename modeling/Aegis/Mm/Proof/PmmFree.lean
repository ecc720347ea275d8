import Aegis.Mm.Proof.PmmRun

/-!
# What `pmm_free` accepts

`pmm_free` checks its order against `PMM_MAX_ORDER`, and the state of the frame that its address is
in. Neither the order of the block nor the address itself is compared with what was handed out
(`pmmFree_validates_iff`).
-/

namespace Aegis

open Pmm Dyadic

/-- `pmm_free` panics, which it does before it writes anything, or the block is live and has the
given order. -/
def FreeChecked (s : PmmState) (p order : Nat) : Prop :=
  (∃ m, s.pmm.pmmFree p order = .panic m) ∨ (p, order) ∈ s.live

/-- If the frame of `p` is the first of an allocated block, `p` is its address and `order` the order
that the frame array has for it. -/
def NamesBlock (s : PmmState) (p order : Nat) : Prop :=
  p ≠ pmmInvalid → order ≤ pmmMaxOrder → s.pmm.pfnOk (s.pmm.pfnOf p) →
    Used (s.pmm.frames (s.pmm.pfnOf p)).state →
    p = s.pmm.physOf (s.pmm.pfnOf p) ∧ order = (s.pmm.frames (s.pmm.pfnOf p)).order

/-- Every free of a live block names it. -/
def FreesNamed (s : PmmState) : PmmOp → Prop
  | .alloc _ _ => True
  | .free p order => NamesBlock s p order

/-- The states that `pmm_init` and such a run lead to. -/
def PmmReachNamed (s : PmmState) : Prop :=
  ∃ t map kphys ksize s₀ ops, Pmm.pmmInit t map kphys ksize = .ok s₀ ∧
    Run.Legal pmmStep FreesNamed ⟨s₀, ∅⟩ ops ∧ Run.run pmmStep ⟨s₀, ∅⟩ ops = some s

namespace Pmm

variable {o p : Nat} {s : Pmm} {m : String}

/-! ## A free past the checks does not panic -/

theorem listRemoveFrom_no_panic {order pfn : Nat} :
    ∀ (k : Nat) (s : Pmm) (w : Option Nat), listRemoveFrom order pfn k s w ≠ .panic m := by
  intro k
  induction k with
  | zero => exact fun s w h => by cases h
  | succ k ih =>
    intro s w
    unfold listRemoveFrom
    dsimp only
    split_ifs
    · exact fun h => by cases h
    · exact fun h => by cases h
    · exact ih s _

theorem mergeLoop_no_panic : ∀ (k : Nat) (s : Pmm) (p o : Nat), mergeLoop k s p o ≠ .panic m := by
  intro k
  induction k with
  | zero => exact fun s p o h => by cases h
  | succ k ih =>
    intro s p o
    unfold mergeLoop
    dsimp only
    split
    · exact fun h => by cases h
    · split
      · exact fun h => by cases h
      · cases hr : s.listRemove o (p ^^^ 2 ^ o) with
        | ok s1 => exact ih _ _ _
        | panic m' => exact absurd hr (listRemoveFrom_no_panic _ _ _)
        | diverge => exact fun h => by cases h
        | fault => exact fun h => by cases h

theorem pmmFree_panics_iff : (∃ m, s.pmmFree p o = .panic m) ↔
    p = pmmInvalid ∨ o > pmmMaxOrder ∨ ¬ s.pfnOk (s.pfnOf p) ∨ ¬ Used (s.frames (s.pfnOf p)).state := by
  have hst : ∀ st : FrameState, (st = .free ∨ st = .tail ∨ st = .reserved) ↔ ¬ Used st := by
    unfold Used
    intro st
    cases st <;> decide
  unfold pmmFree
  dsimp only
  by_cases h1 : p = pmmInvalid ∨ o > pmmMaxOrder
  · rw [if_pos h1]
    exact ⟨fun _ => h1.imp_right .inl, fun _ => ⟨_, rfl⟩⟩
  rw [if_neg h1, ← hst]
  split
  · next h2 => exact ⟨fun _ => .inr (.inr h2), fun _ => ⟨_, rfl⟩⟩
  · next h2 =>
    refine ⟨fun ⟨m, he⟩ => ?_, fun h => ?_⟩
    · generalize hk : mergeLoop _ _ _ _ = r at he
      cases r with
      | ok r => cases he
      | panic m' => exact absurd hk (mergeLoop_no_panic _ _ _ _)
      | diverge => cases he
      | fault => cases he
    · exact (h.elim (fun h => h1 (.inl h)) fun h => h.elim (fun h => h1 (.inr h)) h2).elim

theorem mergeLoop_unmerged (hb : (s.frames (p ^^^ 2 ^ o)).state ≠ .free) (k : Nat) :
    mergeLoop k s p o = .ok (s, p, o) := by
  cases k with
  | zero => rfl
  | succ k =>
    unfold mergeLoop
    dsimp only
    split
    · rfl
    · rw [if_pos (.inl hb)]

theorem pmmFree_unmerged (hp : ¬ ∃ m, s.pmmFree p o = .panic m)
    (hb : ((s.markBlock (s.pfnOf p) o .free).frames (s.pfnOf p ^^^ 2 ^ o)).state ≠ .free) :
    ∃ s1 : Pmm, s1.frames = (s.markBlock (s.pfnOf p) o .free).frames ∧ s1.physBase = s.physBase ∧
      s.pmmFree p o = .ok (s1.listPush o (s.pfnOf p)) := by
  unfold pmmFree at hp ⊢
  dsimp only at hp ⊢
  split
  · next h => rw [if_pos h] at hp; exact absurd ⟨_, rfl⟩ hp
  · next h =>
    rw [if_neg h] at hp
    split
    · next h2 => rw [if_pos h2] at hp; exact absurd ⟨_, rfl⟩ hp
    · refine ⟨{ s.markBlock (s.pfnOf p) o .free with
        freePages := u64 ((s.markBlock (s.pfnOf p) o .free).freePages + 2 ^ o) }, rfl,
        (markBlock_rest s (s.pfnOf p) o .free).2.1, ?_⟩
      rw [mergeLoop_unmerged]
      · rfl
      · exact hb

/-! ## More frames than numbers for them -/

theorem buildLists_of_many : ∀ (k : Nat) (s : Pmm) (p : Nat), p < 2 ^ 32 → 2 ^ 32 ≤ s.nframes →
    buildLists k s p = .diverge
  | 0, _, _, _, _ => rfl
  | k + 1, s, p, hp, hn => by
    unfold buildLists
    rw [if_pos (show p < s.nframes by omega)]
    split
    · exact buildLists_of_many k s _ (u32_lt _) hn
    · refine buildLists_of_many k _ _ (u32_lt _) ?_
      have hm : (s.markBlock p (s.growOrder p pmmMaxOrder 0) .free).nframes = s.nframes :=
        (markBlock_rest s p (s.growOrder p pmmMaxOrder 0) .free).1
      exact hm.symm ▸ hn

theorem pmmInit_small {t : Target} {map : List MmapEntry} {kphys ksize : Nat}
    (h : pmmInit t map kphys ksize = .ok s) : s.nframes < 2 ^ 32 := by
  obtain ⟨s1, -, h2⟩ := Outcome.bind_eq_ok.1 h
  rw [buildLists_nframes _ _ _ h2]
  by_contra hn
  rw [buildLists_of_many _ _ _ (by decide) (by omega)] at h2
  cases h2

end Pmm

section
variable {s : PmmState}

/-! ## The frees that are checked -/

theorem freeChecked_iff {F : Set Nat} (h : Inv s.pmm s.live F ∅) (p order : Nat) :
    FreeChecked s p order ↔ NamesBlock s p order := by
  unfold FreeChecked
  rw [pmmFree_panics_iff]
  constructor
  · rintro (h1 | hlive) hp ho hok hused
    · rcases h1 with h1 | h1 | h1 | h1
      · exact absurd h1 hp
      · exact absurd ho (by omega)
      · exact absurd hok h1
      · exact absurd hused h1
    · obtain ⟨q, hq, rfl⟩ := (h.live p order).1 hlive
      have hlt := hq.lt
      have hsmall := h.small
      rw [pfnOf_physOf h.base.1 (by omega)]
      exact ⟨rfl, hq.order.symm⟩
  · intro hn
    by_cases hp : p = pmmInvalid
    · exact .inl (.inl hp)
    by_cases ho : order ≤ pmmMaxOrder
    swap
    · exact .inl (.inr (.inl (by omega)))
    by_cases hok : s.pmm.pfnOk (s.pmm.pfnOf p)
    swap
    · exact .inl (.inr (.inr (.inl hok)))
    by_cases hused : Used (s.pmm.frames (s.pmm.pfnOf p)).state
    swap
    · exact .inl (.inr (.inr (.inr hused)))
    obtain ⟨h1, h2⟩ := hn hp ho hok hused
    refine .inr ((h.live p order).2 ⟨s.pmm.pfnOf p, ?_, h1⟩)
    exact ⟨by simpa [pfnOk] using hok, Finset.notMem_empty _, hused, h2.symm⟩

theorem pmmFree_checked {F : Set Nat} (h : Inv s.pmm s.live F ∅) {p order : Nat} {s' : Pmm}
    (hc : FreeChecked s p order) (hr : s.pmm.pmmFree p order = .ok s') :
    ∃ F', Inv s' (s.live.erase (p, order)) F' ∅ := by
  rcases hc with ⟨m, he⟩ | hlive
  · rw [hr] at he
    cases he
  · obtain ⟨s1, he, -, hl, hI⟩ := pmmStep_free h hlive
    simp only [pmmStep, hr, Option.some.injEq] at he
    subst he
    exact ⟨_, hI⟩

theorem PmmReachNamed.inv (h : PmmReachNamed s) : ∃ F, Inv s.pmm s.live F ∅ := by
  obtain ⟨t, map, kphys, ksize, s0, ops, h0, hl, hr⟩ := h
  refine Run.run_keeps (I := fun s => ∃ F, Inv s.pmm s.live F ∅) ?_
    (pmmInit_inv h0 (pmmInit_small h0)) hl hr
  intro s op s' ⟨F, hI⟩ hok hs
  cases op with
  | alloc order flags =>
    have hno : ∀ pa o, PmmOp.alloc order flags = .free pa o → (pa, o) ∈ s.live := nofun
    obtain ⟨s1, he, hI1⟩ := pmmStep_inv hI hno
    rw [hs] at he
    cases he
    exact hI1
  | free p order =>
    simp only [pmmStep] at hs
    split at hs
    · next pmm he =>
      cases hs
      exact pmmFree_checked hI ((freeChecked_iff hI p order).2 hok) he
    · cases hs

/-- **`pmm_free` checks its arguments exactly where they name the block that the frame is in.** -/
theorem pmmFree_validates_iff (h : PmmReachNamed s) (p order : Nat) :
    (FreeChecked s p order ↔ NamesBlock s p order) ∧
      (NamesBlock s p order → ∀ s', s.pmm.pmmFree p order = .ok s' →
        BuddyInv ⟨s', s.live.erase (p, order)⟩) := by
  obtain ⟨F, hI⟩ := h.inv
  have hiff := freeChecked_iff hI p order
  refine ⟨hiff, fun hn s' hr => ?_⟩
  obtain ⟨F', hI'⟩ := pmmFree_checked hI (hiff.2 hn) hr
  exact hI'.buddyInv

theorem pmmAlloc_pair : ∃ s : PmmState, PmmReachNamed s ∧
    ∃ q, s.live = {(s.pmm.physOf q, 1)} ∧ Head s.pmm ∅ Used 1 q ∧
      ∃ F, Inv s.pmm s.live F ∅ := by
  obtain ⟨si, hf, hn, hst⟩ : ∃ s, initFrames (.host 4096) [⟨0, 0x1000000, 1⟩] 0 0 = .ok s ∧
      s.nframes = 4096 ∧ ∀ f < 4096, (s.frames f).state = .free :=
    ⟨_, rfl, rfl, fun f hf => congrArg Frame.state (if_pos ⟨Nat.zero_le f, hf⟩)⟩
  obtain ⟨s0, h0, -, hI⟩ := pmmInit_returns hf (by omega)
  have hfree : ∀ f < 4096, ∃ o p, Head s0 ∅ Free o p ∧ f ∈ block p o := by
    intro f hlt
    obtain hf | hf := (hI.space f).1 ⟨by omega, hst f hlt⟩
    · exact absurd hf (Finset.notMem_empty f)
    · exact hf
  rcases pmmAlloc_spec hI 1 0 with ⟨-, hnone⟩ | ⟨s1, q, he, hram, -, hI1⟩
  · -- two single free pages would be buddies
    exfalso
    have hzero : ∀ f < 4096, Head s0 ∅ Free 0 f := by
      intro f hlt
      obtain ⟨o, p, hp, hfp⟩ := hfree f hlt
      obtain rfl : o = 0 := by
        by_contra ho
        exact hnone (by decide) o p (by omega) hp
      rw [mem_block, Mem] at hfp
      obtain rfl : f = p := by omega
      exact hp
    exact hI.maximal 0 0 (hzero 0 (by decide)) (by decide) (hzero 1 (by decide))
  · have hne := physOf_ne_invalid hI.base.2 q
    have hrun : pmmStep ⟨s0, ∅⟩ (.alloc 1 0) = some ⟨s1, {(s0.physOf q, 1)}⟩ := by
      simp only [pmmStep, he, if_neg hne]
      rfl
    have hphys := physOf_ram hram q
    have hlive : ({(s0.physOf q, 1)} : Finset (Nat × Nat)) = insert (s0.physOf q, 1) ∅ := by simp
    obtain ⟨q', hq', hqq⟩ := (hI1.live (s0.physOf q) 1).1 (Finset.mem_insert_self _ _)
    refine ⟨⟨s1, {(s0.physOf q, 1)}⟩, ⟨_, _, _, _, s0, [.alloc 1 0], h0,
        ⟨trivial, fun _ _ => trivial⟩, ?_⟩,
      q', ?_, hq', _, hlive ▸ hI1⟩
    · rw [Run.run_cons hrun]
      rfl
    · rw [hqq]

theorem pmmFree_validates_pair : ∃ s : PmmState, PmmReachNamed s ∧
    ∃ p, FreeChecked s p 1 ∧ NamesBlock s p 1 := by
  obtain ⟨s, hr, q, hl, hq, F, hI⟩ := pmmAlloc_pair
  have hc : FreeChecked s (s.pmm.physOf q) 1 := .inr (by simp [hl])
  exact ⟨s, hr, _, hc, (pmmFree_validates_iff hr (s.pmm.physOf q) 1).1.1 hc⟩

/-- The two pages are freed as one: the frame array and the callers then disagree on the block. -/
theorem pmmFree_wrong_order : ∃ s : PmmState, PmmReachNamed s ∧ ∃ p s',
    (p, 0) ∉ s.live ∧ s.pmm.pmmFree p 0 = .ok s' ∧ ¬ BuddyInv ⟨s', s.live.erase (p, 0)⟩ := by
  obtain ⟨s, hr, q, hl, hq, F, hI⟩ := pmmAlloc_pair
  obtain ⟨hw, -⟩ := hI.shape.whole Used 1 q (.inr rfl) hq
  have hlt := hq.lt
  have hsmall := hI.small
  have hpfn : s.pmm.pfnOf (s.pmm.physOf q) = q := pfnOf_physOf hI.base.1 (by omega)
  have hok : s.pmm.pfnOk (s.pmm.pfnOf (s.pmm.physOf q)) := by simp [hpfn, pfnOk, hlt]
  have hnp : ¬ ∃ m, s.pmm.pmmFree (s.pmm.physOf q) 0 = .panic m := by
    rw [pmmFree_panics_iff]
    rintro (h | h | h | h)
    · exact physOf_ne_invalid hI.base.2 q h
    · exact absurd h (by decide)
    · exact h hok
    · rw [hpfn] at h
      exact h hq.state
  -- the buddy of the page is the other one of the pair
  have hbuddy : q ^^^ 2 ^ 0 = q + 1 := buddy_of_dvd hw.aligned
  have hm := markBlock_frames hI.small (Nat.zero_le pmmMaxOrder) (p := q) (by omega) .free
  obtain ⟨s1, hf, hbase, he⟩ := pmmFree_unmerged hnp (by
    rw [hpfn, hbuddy, hm, if_neg (by omega), if_neg (by omega),
      hw.tails (q + 1) (by omega) (by omega)]
    decide)
  rw [hpfn] at hf he
  refine ⟨s, hr, _, _, by simp [hl], he, fun hB => ?_⟩
  have hin : (q, 1) ∈ (s1.listPush 0 q).liveBlocks (s.live.erase (s.pmm.physOf q, 0)) := by
    refine ⟨(s.pmm.physOf q, 1), by simp [hl], ?_⟩
    have hbase' : (s1.listPush 0 q).physBase = s.pmm.physBase := hbase
    rw [pfnOf, hbase']
    exact congrArg (·, 1) hpfn.symm
  have hst := (hB.live _ hin).2
  rw [(listPush_same s1 0 q).state, hf, hm, if_pos rfl] at hst
  simp at hst

end

end Aegis
