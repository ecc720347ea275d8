import Aegis.Ob.Proof.Transfers

/-!
# Generations: stale handles are rejected

`Evolves e e'`: a slot moves from `e` to `e'` by bumps of its generation, and keeps its contents
while there is none. Every operation lets every slot evolve, and only a close or a destruction
bumps a slot in use (`Guarded`). The generations repeat after `2 ^ 32 - 1` bumps and not before
(`iterate_ne`), which is how long a closed handle stays rejected.
-/

namespace Aegis

open Outcome

namespace World

variable {i : Nat} {g : BitVec 32} {e1 e2 e3 : HandleEntry}

/-! ## Handle values -/

section
variable (hi : i < 2 ^ 14) (g : BitVec 32)
include hi

theorem toNat_handleValue : (handleValue i g).toNat = 2 ^ 16 * g.toNat + 4 * i := by
  have hg := g.isLt
  have h1 : (BitVec.ofNat 64 i <<< 2).toNat = 4 * i := by
    rw [BitVec.toNat_shiftLeft, BitVec.toNat_ofNat, Nat.shiftLeft_eq]
    omega
  have h2 : (g.setWidth 64 <<< 16).toNat = 2 ^ 16 * g.toNat := by
    rw [BitVec.toNat_shiftLeft, BitVec.toNat_setWidth, Nat.shiftLeft_eq]
    omega
  rw [handleValue, BitVec.toNat_or, h1, h2, Nat.or_comm,
    Nat.two_pow_add_eq_or_of_lt (by omega)]

theorem handleIndex_handleValue : handleIndex (handleValue i g) = i := by
  rw [handleIndex, BitVec.toNat_and, BitVec.toNat_ushiftRight, toNat_handleValue hi,
    Nat.shiftRight_eq_div_pow]
  show _ &&& (2 ^ 14 - 1) = i
  rw [Nat.and_two_pow_sub_one_eq_mod]
  omega

theorem handleGen_handleValue : handleGen (handleValue i g) = g := by
  apply BitVec.eq_of_toNat_eq
  have hg := g.isLt
  rw [handleGen, BitVec.toNat_setWidth, BitVec.toNat_ushiftRight, toNat_handleValue hi,
    Nat.shiftRight_eq_div_pow]
  omega

theorem handleValue_and_three : handleValue i g &&& 3 = 0 := by
  apply BitVec.eq_of_toNat_eq
  rw [BitVec.toNat_and, toNat_handleValue hi]
  show _ &&& (2 ^ 2 - 1) = 0
  rw [Nat.and_two_pow_sub_one_eq_mod]
  omega

end

/-! ## The cycle of generations -/

theorem toNat_nextGeneration (g : BitVec 32) :
    (nextGeneration g).toNat = g.toNat % (2 ^ 32 - 1) + 1 := by
  have hg := g.isLt
  have h0 : (0 : BitVec 32).toNat = 0 := rfl
  have h1 : (1 : BitVec 32).toNat = 1 := rfl
  unfold nextGeneration
  split
  · rename_i h
    have := congrArg BitVec.toNat h
    rw [BitVec.toNat_add, h0, h1] at this
    rw [h1]
    omega
  · rename_i h
    have : (g + 1).toNat ≠ 0 := fun e => h (BitVec.eq_of_toNat_eq e)
    rw [BitVec.toNat_add, h1] at this ⊢
    omega

theorem toNat_iterate (hg : g ≠ 0) (k : Nat) :
    (nextGeneration^[k] g).toNat = (g.toNat - 1 + k) % (2 ^ 32 - 1) + 1 := by
  have h0 : g.toNat ≠ 0 := fun e => hg (BitVec.eq_of_toNat_eq e)
  have hlt := g.isLt
  induction k with
  | zero =>
    simp only [Function.iterate_zero, id]
    omega
  | succ k ih =>
    rw [Function.iterate_succ_apply', toNat_nextGeneration, ih]
    omega

/-- The generations repeat after `2 ^ 32 - 1` bumps and not before. -/
theorem iterate_ne (hg : g ≠ 0) {k : Nat} (h0 : 0 < k) (hk : k < 2 ^ 32 - 1) :
    nextGeneration^[k] g ≠ g := by
  intro h
  have h1 := toNat_iterate hg k
  have hn : g.toNat ≠ 0 := fun e => hg (BitVec.eq_of_toNat_eq e)
  have hlt := g.isLt
  rw [h] at h1
  omega

theorem nextGeneration_ne_zero (g : BitVec 32) : nextGeneration g ≠ 0 := by
  intro h
  have := toNat_nextGeneration g
  rw [h] at this
  simp at this

/-! ## How slots evolve -/

/-- The slot got from `e` to `e'` by bumps of its generation. -/
structure Evolves (e e' : HandleEntry) : Prop where
  bumps : e.bumps ≤ e'.bumps
  generation : e'.generation = nextGeneration^[e'.bumps - e.bumps] e.generation
  same : e'.bumps = e.bumps → e'.object = e.object ∧ e'.protectClose = e.protectClose

theorem Evolves.refl (e : HandleEntry) : Evolves e e :=
  ⟨Nat.le_refl _, by simp, fun _ => ⟨rfl, rfl⟩⟩

theorem Evolves.trans (h : Evolves e1 e2) (h' : Evolves e2 e3) : Evolves e1 e3 := by
  have hb := h.bumps
  have hb' := h'.bumps
  refine ⟨by omega, ?_, fun he => ?_⟩
  · rw [h'.generation, h.generation, ← Function.iterate_add_apply]
    congr 1
    omega
  · obtain ⟨h1, h2⟩ := h.same (by omega)
    obtain ⟨h3, h4⟩ := h'.same (by omega)
    exact ⟨h3.trans h1, h4.trans h2⟩

theorem Evolves.bump {e e' : HandleEntry} (hb : e'.bumps = e.bumps + 1)
    (hg : e'.generation = nextGeneration e.generation) : Evolves e e' := by
  refine ⟨by omega, ?_, fun he => absurd he (by omega)⟩
  rw [hg, hb, Nat.add_sub_cancel_left]
  rfl

/-- The slot evolved, and if it was in use it was not bumped. -/
structure Guarded (e e' : HandleEntry) : Prop extends Evolves e e' where
  untouched : e.object ≠ none → e'.bumps = e.bumps

theorem Guarded.refl (e : HandleEntry) : Guarded e e := ⟨Evolves.refl e, fun _ => rfl⟩

theorem Guarded.trans (h : Guarded e1 e2) (h' : Guarded e2 e3) : Guarded e1 e3 := by
  refine ⟨h.toEvolves.trans h'.toEvolves, fun hu => ?_⟩
  have h1 := h.untouched hu
  rw [h'.untouched (by rwa [(h.same h1).1]), h1]

/-- Every slot of every table evolved, and the ones in use were not bumped. -/
structure TablesGuarded (w w' : World) : Prop where
  nobj : w.nobj ≤ w'.nobj
  slots : ∀ p < w.nobj, ∀ i, Guarded ((w.handles p).slots i) ((w'.handles p).slots i)

section
variable {w w' : World} {p o i : Nat} {h : Handle}
variable {q used : Nat} {op : HtOp} {x : TableScope}

theorem TablesGuarded.refl (w : World) : TablesGuarded w w :=
  ⟨Nat.le_refl _, fun _ _ _ => Guarded.refl _⟩

theorem TablesGuarded.trans {w1 w2 w3 : World} (h : TablesGuarded w1 w2)
    (h' : TablesGuarded w2 w3) : TablesGuarded w1 w3 :=
  ⟨Nat.le_trans h.nobj h'.nobj, fun p hp i =>
    (h.slots p hp i).trans (h'.slots p (Nat.lt_of_lt_of_le hp h.nobj) i)⟩

theorem guarded_of_handles (hn : w'.nobj = w.nobj) (hh : w'.handles = w.handles) :
    TablesGuarded w w' :=
  ⟨hn.ge, fun p _ i => by rw [hh]; exact Guarded.refl _⟩

theorem setTable_guarded {e : HandleEntry} (he : Guarded ((w.handles p).slots i) e) :
    TablesGuarded w (w.setTable p ((w.handles p).set i e used)) := by
  refine ⟨Nat.le_refl _, fun q _ j => ?_⟩
  rw [slots_setTable]
  split
  · rename_i hqj
    obtain ⟨rfl, rfl⟩ := hqj
    exact he
  · exact Guarded.refl _

theorem Transfer.guarded (h : Transfer x w w') (hx : ∀ p, ¬ x.closes p) : TablesGuarded w w' := by
  cases h with
  | quiet h => exact guarded_of_handles h.nobj h.handles
  | fill _ _ _ _ _ _ hfree =>
    exact (setTable_guarded ⟨Evolves.bump rfl rfl, fun hu => absurd hfree hu⟩).trans
      (guarded_of_handles (openFn_kept _ _).nobj (openFn_kept _ _).handles)
  | empty _ _ hc => exact absurd hc (hx _)
  | flag =>
    exact setTable_guarded ⟨⟨Nat.le_refl _, by simp, fun _ => ⟨rfl, rfl⟩⟩, fun _ => rfl⟩
  | new kind name =>
    refine ⟨Nat.le_succ _, fun p hp i => ?_⟩
    rw [show (w.newObject kind name).handles p = w.handles p by
      simp [newObject, setTable, setObj, setNext, setPrev, Nat.ne_of_lt hp]]
    exact Guarded.refl _

theorem Transfers.guarded (h : Transfers x w w') (hx : ∀ p, ¬ x.closes p) : TablesGuarded w w' :=
  h.keeps (I := TablesGuarded w) (fun _ _ hi hm => hi.trans (hm.guarded hx)) (TablesGuarded.refl w)

/-! ## Closing and destroying -/

theorem release_slots {acc : Access}
    (hr : (w.setTable p ((w.handles p).set i (emptied ((w.handles p).slots i)) used)).releaseHandle
      o acc = .ok w') (q j : Nat) : (w'.handles q).slots j =
        if q = p ∧ j = i then emptied ((w.handles p).slots i) else (w.handles q).slots j := by
  rw [(releaseHandle_kept hr).handles, slots_setTable]

theorem destroyLoop_slots {k : Nat} (hr : destroyLoop p k w = .ok w') :
    w'.nobj = w.nobj ∧ (∀ q, q ≠ p → w'.handles q = w.handles q) ∧
      (∀ i, Evolves ((w.handles p).slots i) ((w'.handles p).slots i)) ∧
      ∀ i ∈ Finset.Ico 1 handleTableSlots, ((w.handles p).slots i).object ≠ none →
        ((w.handles p).slots i).bumps < ((w'.handles p).slots i).bumps := by
  induction k generalizing w with
  | zero => cases hr
  | succ k ih =>
    simp only [destroyLoop] at hr
    split at hr
    · rename_i hf
      cases hr
      exact ⟨rfl, fun _ _ => rfl, fun i => Evolves.refl _,
        fun i hi hu => absurd (firstUsed_none hf i hi) hu⟩
    · rename_i i0 hf
      obtain ⟨-, o, ho⟩ := firstUsed_spec hf
      rw [ho] at hr
      simp only [bind_eq_ok] at hr
      obtain ⟨w1, h1, h2⟩ := hr
      obtain ⟨hn, hq, hev, hbump⟩ := ih h2
      have hslot := release_slots h1
      have hemp : Evolves ((w.handles p).slots i0) (emptied ((w.handles p).slots i0)) :=
        Evolves.bump rfl rfl
      refine ⟨hn.trans (releaseHandle_kept h1).nobj, fun q hqp => ?_, fun i => ?_,
        fun i hi hu => ?_⟩
      · rw [hq q hqp, (releaseHandle_kept h1).handles, handles_setTable_of_ne _ _ _ hqp]
      · refine Evolves.trans ?_ (hev i)
        rw [hslot]
        split
        · rename_i he
          obtain ⟨-, rfl⟩ := he
          exact hemp
        · exact Evolves.refl _
      · by_cases he : i = i0
        · subst he
          have := (hev i).bumps
          rw [hslot, if_pos ⟨rfl, rfl⟩] at this
          exact this
        · have := hbump i hi
          rw [hslot, if_neg fun hc => he hc.2] at this
          exact this hu

/-! ## Steps and runs -/

/-- One slot across a step: it evolves, and is bumped under a live handle exactly by a step that
ends the handle. -/
structure SlotStep (p i : Nat) (w : World) (op : HtOp) (w' : World) : Prop
    extends Evolves ((w.handles p).slots i) ((w'.handles p).slots i) where
  ends : ∀ h o, (w.handles p).resolve h = some (i, o) →
    (((w'.handles p).slots i).bumps = ((w.handles p).slots i).bumps ↔ ¬ Ends p h w op)

theorem TablesGuarded.slotStep (h : TablesGuarded w w') (hp : p < w.nobj)
    (hop : ∀ h, ¬ Ends p h w op) : SlotStep p i w op w' := by
  refine ⟨(h.slots p hp i).toEvolves, fun hd o hr => ⟨fun _ => hop hd, fun _ => ?_⟩⟩
  refine (h.slots p hp i).untouched ?_
  rw [(resolve_eq_some.1 hr).2.2.2.1]
  exact Option.some_ne_none o

theorem htClose_slotStep {st : Status} (hr : w.htClose q h = .ok (st, w')) :
    w.nobj ≤ w'.nobj ∧ SlotStep p i w (.close q h) w' := by
  rcases htClose_cases w q h with ⟨hn, he⟩ | ⟨j, o, hj, ⟨hpc, he⟩ | ⟨hpc, he⟩⟩
  · rw [he] at hr
    cases hr
    refine ⟨Nat.le_refl _, Evolves.refl _, fun hd o' hs => ⟨fun _ hc => ?_, fun _ => rfl⟩⟩
    -- a value that closes a live handle resolves itself
    obtain ⟨rfl, hi, hg, h3, -⟩ := hc
    obtain ⟨hm, hi', -, ho, hg'⟩ := resolve_eq_some.1 hs
    rw [resolve_eq_some.2 ⟨hm, hi.trans hi', h3, ho, hg'.trans hg.symm⟩] at hn
    cases hn
  · rw [he] at hr
    cases hr
    refine ⟨Nat.le_refl _, Evolves.refl _, fun hd o' hs => ⟨fun _ hc => ?_, fun _ => rfl⟩⟩
    obtain ⟨rfl, hi, -, -, hf⟩ := hc
    rw [← hi, (resolve_eq_some.1 hj).2.1, hpc] at hf
    cases hf
  · rw [he, bind_eq_ok] at hr
    obtain ⟨w1, h1, h2⟩ := hr
    cases h2
    obtain ⟨hjm, hji, hj3, hjo, hjg⟩ := resolve_eq_some.1 hj
    refine ⟨(releaseHandle_kept h1).nobj.ge, ?_⟩
    have hslot := release_slots h1 p i
    by_cases hc : p = q ∧ i = j
    · obtain ⟨rfl, rfl⟩ := hc
      rw [if_pos ⟨rfl, rfl⟩] at hslot
      constructor
      · rw [hslot]
        exact Evolves.bump rfl rfl
      · intro hd o' hs
        obtain ⟨-, hi', -, -, hg'⟩ := resolve_eq_some.1 hs
        refine ⟨fun hb => ?_, fun hne => absurd ?_ hne⟩
        · rw [hslot] at hb
          exact absurd hb (Nat.succ_ne_self _)
        · exact ⟨rfl, hji.trans hi'.symm, hjg.symm.trans hg', hj3, by rw [hi']; exact hpc⟩
    · rw [if_neg hc] at hslot
      constructor
      · rw [hslot]
        exact Evolves.refl _
      · intro hd o' hs
        rw [hslot]
        refine ⟨fun _ he => hc ?_, fun _ => rfl⟩
        exact ⟨he.1.symm, (resolve_eq_some.1 hs).2.1.symm.trans (he.2.1.symm.trans hji)⟩

theorem htDestroy_slotStep (hr : w.htDestroy q = .ok w') :
    w.nobj ≤ w'.nobj ∧ SlotStep p i w (.destroy q) w' := by
  obtain ⟨hn, hother, hev, hbump⟩ := destroyLoop_slots hr
  refine ⟨hn.ge, ?_⟩
  by_cases hc : p = q
  · subst hc
    refine ⟨hev i, fun hd o hs => ⟨fun hb => ?_, fun hne => absurd rfl hne⟩⟩
    obtain ⟨hm, -, -, ho, -⟩ := resolve_eq_some.1 hs
    have := hbump i hm (by rw [ho]; exact Option.some_ne_none o)
    omega
  · constructor
    · rw [hother p hc]
      exact Evolves.refl _
    · intro hd o hs
      rw [hother p hc]
      exact ⟨fun _ he => hc he.symm, fun _ => rfl⟩

theorem htNext_slotStep (hop : op.IsTable) (hp : p < w.nobj) (hr : w.htNext op = some w') :
    w.nobj ≤ w'.nobj ∧ SlotStep p i w op w' := by
  -- every operation but a close and a destruction leaves the slots in use alone
  have hg : (∀ p, ¬ ClosesIn w p op) → (∀ h, ¬ Ends p h w op) →
      w.nobj ≤ w'.nobj ∧ SlotStep p i w op w' := fun hc hne =>
    have hg := (htNext_transfers hr).guarded hc
    ⟨hg.nobj, hg.slotStep hp hne⟩
  cases op with
  | close q hd =>
    obtain ⟨⟨w', l⟩, hr', rfl⟩ := Option.map_eq_some_iff.1 hr
    obtain ⟨⟨st, w1⟩, h1, h2⟩ := bind_eq_ok.1 (get?_eq_some.1 hr')
    cases h2
    exact htClose_slotStep h1
  | destroy q =>
    obtain ⟨⟨w', l⟩, hr', rfl⟩ := Option.map_eq_some_iff.1 hr
    obtain ⟨w1, h1, h2⟩ := bind_eq_ok.1 (get?_eq_some.1 hr')
    cases h2
    exact htDestroy_slotStep h1
  | ntDuplicate => exact hop.elim
  | _ => exact hg (fun _ => id) fun _ => id

/-- A handle resolves as long as its slot is not bumped. -/
theorem Evolves.resolve (he : Evolves ((w.handles p).slots i) ((w'.handles p).slots i))
    (hb : ((w'.handles p).slots i).bumps = ((w.handles p).slots i).bumps)
    (hr : (w.handles p).resolve h = some (i, o)) : (w'.handles p).resolve h = some (i, o) := by
  obtain ⟨hm, hi, h3, ho, hg⟩ := resolve_eq_some.1 hr
  refine resolve_eq_some.2 ⟨hm, hi, h3, (he.same hb).1.trans ho, ?_⟩
  rw [he.generation, hb, Nat.sub_self]
  exact hg

theorem run_slot {ops : List HtOp} (hops : ∀ op ∈ ops, op.IsTable) (hp : p < w.nobj)
    (hr : Run.run htNext w ops = some w') :
    Evolves ((w.handles p).slots i) ((w'.handles p).slots i) ∧
      ∀ h o, (w.handles p).resolve h = some (i, o) →
        (((w'.handles p).slots i).bumps = ((w.handles p).slots i).bumps ↔ ¬ Ended p h w ops) := by
  induction ops generalizing w with
  | nil =>
    cases hr
    exact ⟨Evolves.refl _, fun h o _ => ⟨fun _ => id, fun _ => rfl⟩⟩
  | cons op ops ih =>
    simp only [Run.run, Option.bind_eq_some_iff] at hr
    obtain ⟨w1, h1, h2⟩ := hr
    obtain ⟨hn, hs⟩ := htNext_slotStep (i := i) (hops op List.mem_cons_self) hp h1
    obtain ⟨hev, hlive⟩ := ih (fun op' h' => hops op' (List.mem_cons_of_mem _ h'))
      (Nat.lt_of_lt_of_le hp hn) h2
    refine ⟨hs.toEvolves.trans hev, fun h o hres => ?_⟩
    have hb1 := hs.bumps
    have hb2 := hev.bumps
    have hended : Ended p h w (op :: ops) ↔ Ends p h w op ∨ Ended p h w1 ops := by
      simp [Ended, h1]
    rw [hended, not_or, ← hs.ends h o hres]
    constructor
    · intro hb
      have hb' : ((w1.handles p).slots i).bumps = ((w.handles p).slots i).bumps := by omega
      exact ⟨hb', (hlive h o (hs.toEvolves.resolve hb' hres)).1 (by omega)⟩
    · rintro ⟨hb, hne⟩
      rw [← hb]
      exact (hlive h o (hs.toEvolves.resolve hb hres)).2 hne

/-! ## What the functions do with a handle -/

theorem accepted_of_resolve (hr : (w.handles p).resolve h = some (i, o)) : Accepted w p h o := by
  obtain ⟨-, hi, -⟩ := resolve_eq_some.1 hr
  refine ⟨⟨((w.handles p).slots i).access, ?_⟩, fun required expect => ?_, ?_, fun inherit => ?_⟩
  · simp [htLookupEx, hr]
  · simp only [htLookupEx, hr]
    split_ifs <;> simp
  · simp only [htClose, hr, hi]
  · simp only [htSetInherit, hr]

theorem rejected_of_resolve (hr : (w.handles p).resolve h = none) : Rejected w p h := by
  refine ⟨fun required expect => ?_, ?_, fun inherit => ?_⟩
  · simp only [htLookupEx, hr]
  · simp only [htClose, hr]
  · simp only [htSetInherit, hr]

theorem resolve_ne {t : HandleTable}
    (hg : (t.slots (handleIndex h)).generation ≠ handleGen h) : t.resolve h = none := by
  rcases hr : t.resolve h with _ | ⟨i, o⟩
  · rfl
  · obtain ⟨-, hi, -, -, hg'⟩ := resolve_eq_some.1 hr
    rw [← hi] at hg'
    exact absurd hg' hg

theorem mem_slots_lt (hi : i ∈ Finset.Ico 1 handleTableSlots) : i < 2 ^ 14 := by
  have := (Finset.mem_Ico.1 hi).2
  rw [handleTableSlots] at this
  omega

theorem htInsertEx_ne (hr : (w.handles p).resolve h = some (i, o)) (o' : Nat) (access : Access)
    (inherit protectClose : Bool) :
    (w.htInsertEx p o' access inherit protectClose).2.1 ≠ some h := by
  obtain ⟨-, hi, -, ho, -⟩ := resolve_eq_some.1 hr
  rcases htInsertEx_cases w p o' access inherit protectClose with ⟨-, he⟩ | ⟨j, -, hj, hn, he⟩
  · rw [he]
    exact (Option.some_ne_none h).symm
  · rw [he]
    intro hc
    rw [← Option.some.inj hc, handleIndex_handleValue (mem_slots_lt hj)] at hi
    rw [hi, ho] at hn
    cases hn

theorem distinct_of_resolve (hr : (w.handles p).resolve h = some (i, o)) : Distinct w p h := by
  refine ⟨fun j hj hne hv => hne ?_, htInsertEx_ne hr, fun src h' access st out w' hd => ?_⟩
  · rw [← hv, handleIndex_handleValue (mem_slots_lt hj)]
  · rcases htDuplicate_cases w src h' p access with ⟨st', -, he⟩ | ⟨j, o', -, he⟩
    · rw [he] at hd
      cases hd
      exact (Option.some_ne_none h).symm
    · rw [he, bind_eq_ok] at hd
      obtain ⟨w1, -, h2⟩ := hd
      cases h2
      rw [← (obReference_kept o').handles] at hr
      exact htInsertEx_ne hr o' _ false false

theorem htInsertEx_resolve {access : Access} {inherit protectClose : Bool}
    (hr : w.htInsertEx p o access inherit protectClose = (.success, some h, w')) :
    (w'.handles p).resolve h = some (handleIndex h, o) ∧ handleGen h ≠ 0 ∧ w'.nobj = w.nobj := by
  rcases htInsertEx_cases w p o access inherit protectClose with ⟨-, he⟩ | ⟨i, -, hi, -, he⟩
  · rw [he] at hr
    cases hr
  · rw [he] at hr
    cases hr
    have hlt := mem_slots_lt hi
    rw [handleGen_handleValue hlt, handleIndex_handleValue hlt]
    refine ⟨resolve_eq_some.2 ⟨hi, handleIndex_handleValue hlt _, handleValue_and_three hlt _, ?_⟩,
      nextGeneration_ne_zero _, (openFn_kept _ _).nobj⟩
    rw [(openFn_kept _ _).handles, handleGen_handleValue hlt]
    simp [HandleTable.set, filled, HandleEntry.bump]

end

end World

/-- **The life of a handle.** After any run of table operations, the value that an insertion
returned is accepted, for the object it was issued for and distinct from the other handles of the
table, if no step ended the handle. If one did, it is rejected until its slot has been bumped
`2 ^ 32 - 1` times. -/
theorem handle_lifetime {w w₁ w₂ : World} {p o : Nat} {access : Access}
    {inherit protectClose : Bool} {h : Handle} {ops : List HtOp} (hp : p < w.nobj)
    (hins : w.htInsertEx p o access inherit protectClose = (.success, some h, w₁))
    (hops : ∀ op ∈ ops, op.IsTable) (hrun : Run.run World.htNext w₁ ops = some w₂) :
    (¬ Ended p h w₁ ops → Accepted w₂ p h o ∧ Distinct w₂ p h) ∧ (Ended p h w₁ ops →
        ((w₂.handles p).slots (handleIndex h)).bumps -
          ((w₁.handles p).slots (handleIndex h)).bumps < 2 ^ 32 - 1 → Rejected w₂ p h) := by
  obtain ⟨hres, hg0, hn⟩ := World.htInsertEx_resolve hins
  obtain ⟨hev, hlive⟩ := World.run_slot (i := handleIndex h) hops (hn ▸ hp) hrun
  have hlive := hlive h o hres
  refine ⟨fun hne => ?_, fun he hlt => ?_⟩
  · have hres' := hev.resolve (hlive.2 hne) hres
    exact ⟨World.accepted_of_resolve hres', World.distinct_of_resolve hres'⟩
  · have hb : ((w₂.handles p).slots (handleIndex h)).bumps ≠
        ((w₁.handles p).slots (handleIndex h)).bumps := fun hb => hlive.1 hb he
    have hle := hev.bumps
    refine World.rejected_of_resolve (World.resolve_ne ?_)
    rw [hev.generation, (World.resolve_eq_some.1 hres).2.2.2.2]
    exact World.iterate_ne hg0 (by omega) hlt

/-- A process and an event. -/
def processAndEvent : World := (World.blank.newObject .process none).newObject .event none

/-- The handle is closed and its slot is used again. -/
theorem handle_lifetime_reuse :
    ∃ w₁ w₂, processAndEvent.htInsertEx 0 1 0 false false = (.success, some (handleValue 1 1), w₁) ∧
      Run.run World.htNext w₁ [.close 0 (handleValue 1 1), .insert 0 1 0 false false] = some w₂ ∧
      Rejected w₂ 0 (handleValue 1 1) := by
  have hins : processAndEvent.htInsertEx 0 1 0 false false =
      (.success, some (handleValue 1 1), (processAndEvent.htInsertEx 0 1 0 false false).2.2) :=
    Prod.ext (by decide +kernel) (Prod.ext (by decide +kernel) rfl)
  obtain ⟨w₂, hrun, h3⟩ : ∃ w, Run.run World.htNext (processAndEvent.htInsertEx 0 1 0 false
      false).2.2 [.close 0 (handleValue 1 1), .insert 0 1 0 false false] = some w ∧
      ((w.handles 0).slots (handleIndex (handleValue 1 1))).bumps = 3 := by decide +kernel
  refine ⟨_, w₂, hins, hrun, (handle_lifetime (by decide) hins ?_ hrun).2 ?_ (by rw [h3]; omega)⟩
  · simp [HtOp.IsTable]
  · exact .inl ⟨rfl, rfl, rfl, by decide +kernel, by decide +kernel⟩

end Aegis
