import Aegis.Ob.Proof.Transfers

/-!
# Which rights a run can hand out

`Fills w w' d P`: the step from `w` to `w'` filled free slots of the table of `d`, with objects and
access masks in `P`, and left the other slots as they were. Every copying operation is one, up to
the close of the source. The access masks of the slots in use have no generic right left
(`Mapped`), so a copy of a whole mask is the mask itself.
-/

namespace Aegis

variable {a b : Access}

/-! ## Generic rights -/

/-- A mask without generic rights. -/
def Specific (a : Access) : Prop := ∀ i, 28 ≤ i → a.getLsbD i = false

theorem specific_iff : Specific a ↔ a &&& genericBits = 0#32 := by
  have hbits : ∀ i < 32, genericBits.getLsbD i = decide (28 ≤ i) := by decide
  constructor
  · intro h
    refine BitVec.eq_of_getLsbD_eq fun i hi => ?_
    rw [BitVec.getLsbD_and, hbits i hi, BitVec.getLsbD_zero]
    rcases Nat.lt_or_ge i 28 with h' | h'
    · simp [Nat.not_le.2 h']
    · simp [h i h']
  · intro h i hi
    rcases Nat.lt_or_ge i 32 with hlt | hge
    · have := congrArg (BitVec.getLsbD · i) h
      simp only [BitVec.getLsbD_and, hbits i hlt, hi, decide_true, Bool.and_true,
        BitVec.getLsbD_zero] at this
      exact this
    · exact BitVec.getLsbD_of_ge a i hge

/-- No type maps a generic right to another one. -/
theorem objectType_specific (k : ObjKind) :
    Specific (objectType k).genericRead ∧ Specific (objectType k).genericWrite ∧
      Specific (objectType k).genericExecute ∧ Specific (objectType k).genericAll := by
  simp only [specific_iff]
  cases k <;> decide

theorem mapGenericBit_eq (k : Nat) (h : b = BitVec.twoPow 32 k) (mask a : Access) :
    mapGenericBit b mask a = Mask.exchange k mask a := by
  rw [h]
  rfl

theorem getLsbD_obMapGeneric (k : ObjKind) (a : Access) (i : Nat) :
    (obMapGeneric (objectType k) a).getLsbD i =
      (decide (i < 28) && (a.getLsbD i || (a.getLsbD 31 && (objectType k).genericRead.getLsbD i) ||
        (a.getLsbD 30 && (objectType k).genericWrite.getLsbD i) ||
        (a.getLsbD 29 && (objectType k).genericExecute.getLsbD i) ||
        (a.getLsbD 28 && (objectType k).genericAll.getLsbD i))) := by
  obtain ⟨hr, hw, he, ha⟩ := objectType_specific k
  simp only [obMapGeneric, mapGenericBit_eq 31 (b := genericRead) (by decide),
    mapGenericBit_eq 30 (b := genericWrite) (by decide),
    mapGenericBit_eq 29 (b := genericExecute) (by decide),
    mapGenericBit_eq 28 (b := genericAll) (by decide),
    Mask.getLsbD_exchange (show 31 < 32 by omega), Mask.getLsbD_exchange (show 30 < 32 by omega),
    Mask.getLsbD_exchange (show 29 < 32 by omega), Mask.getLsbD_exchange (show 28 < 32 by omega),
    hr 30 (by omega), hr 29 (by omega), hr 28 (by omega), hw 29 (by omega), hw 28 (by omega),
    he 28 (by omega)]
  rcases Nat.lt_or_ge i 28 with h | h
  · simp [h, show i ≠ 31 by omega, show i ≠ 30 by omega, show i ≠ 29 by omega,
      show i ≠ 28 by omega]
  · rw [hr i h, hw i h, he i h, ha i h]
    rcases Nat.lt_or_ge i 32 with h' | h'
    · have : i = 28 ∨ i = 29 ∨ i = 30 ∨ i = 31 := by omega
      rcases this with rfl | rfl | rfl | rfl <;> simp
    · simp [BitVec.getLsbD_of_ge a i h', Nat.not_lt.2 h]

theorem obMapGeneric_specific (k : ObjKind) (a : Access) :
    Specific (obMapGeneric (objectType k) a) := fun i hi => by
  rw [getLsbD_obMapGeneric, decide_eq_false (Nat.not_lt.2 hi), Bool.false_and]

theorem obMapGeneric_of_specific (k : ObjKind) (h : Specific a) :
    obMapGeneric (objectType k) a = a := by
  refine BitVec.eq_of_getLsbD_eq fun i _ => ?_
  rw [getLsbD_obMapGeneric, h 31 (by omega), h 30 (by omega), h 29 (by omega), h 28 (by omega)]
  rcases Nat.lt_or_ge i 28 with hi | hi
  · simp [hi]
  · simp [h i hi]

theorem Specific.lt (h : Specific a) {i : Nat} (hi : a.getLsbD i = true) : i < 28 := by
  by_contra hge
  rw [h i (Nat.not_lt.1 hge)] at hi
  cases hi

theorem getLsbD_specific (a : Access) (i : Nat) :
    (a &&& ~~~genericBits).getLsbD i = (decide (i < 28) && a.getLsbD i) := by
  have hbits : ∀ i < 32, (~~~genericBits).getLsbD i = decide (i < 28) := by decide
  rcases Nat.lt_or_ge i 32 with h | h
  · rw [BitVec.getLsbD_and, hbits i h, Bool.and_comm]
  · rw [BitVec.getLsbD_of_ge _ i h, BitVec.getLsbD_of_ge a i h, Bool.and_false]

theorem generic_ne_zero {k : Nat} (hb : b = BitVec.twoPow 32 k) (hk : k < 32) :
    a &&& b ≠ 0 ↔ a.getLsbD k = true := by
  rw [hb, Mask.and_twoPow_ne_zero hk]

/-- A mapped mask is granted exactly if what it was mapped from is within the grant. -/
theorem obMapGeneric_le_iff (k : ObjKind) (a g : Access) :
    Mask.Le (obMapGeneric (objectType k) a) g ↔ Within (objectType k) a g := by
  obtain ⟨hr, hw, he, ha⟩ := objectType_specific k
  have hread := generic_ne_zero (a := a) (b := genericRead) (k := 31) (by decide) (by omega)
  have hwrite := generic_ne_zero (a := a) (b := genericWrite) (k := 30) (by decide) (by omega)
  have hexec := generic_ne_zero (a := a) (b := genericExecute) (k := 29) (by decide) (by omega)
  have hall := generic_ne_zero (a := a) (b := genericAll) (k := 28) (by decide) (by omega)
  simp only [Mask.le_iff, getLsbD_obMapGeneric]
  constructor
  · intro h
    refine ⟨Mask.le_iff.2 fun i hi => h i ?_, fun hb => Mask.le_iff.2 fun i hi => h i ?_,
      fun hb => Mask.le_iff.2 fun i hi => h i ?_, fun hb => Mask.le_iff.2 fun i hi => h i ?_,
      fun hb => Mask.le_iff.2 fun i hi => h i ?_⟩
    · rw [getLsbD_specific, Bool.and_eq_true] at hi
      simp [hi.1, hi.2]
    · simp [hr.lt hi, hread.1 hb, hi]
    · simp [hw.lt hi, hwrite.1 hb, hi]
    · simp [he.lt hi, hexec.1 hb, hi]
    · simp [ha.lt hi, hall.1 hb, hi]
  · intro h i hi
    simp only [Bool.and_eq_true, Bool.or_eq_true, decide_eq_true_eq] at hi
    obtain ⟨hlt, (((hi | ⟨hb, hi⟩) | ⟨hb, hi⟩) | ⟨hb, hi⟩) | ⟨hb, hi⟩⟩ := hi
    · exact Mask.le_iff.1 h.specific i (by rw [getLsbD_specific]; simp [hlt, hi])
    · exact Mask.le_iff.1 (h.read (hread.2 hb)) i hi
    · exact Mask.le_iff.1 (h.write (hwrite.2 hb)) i hi
    · exact Mask.le_iff.1 (h.execute (hexec.2 hb)) i hi
    · exact Mask.le_iff.1 (h.all (hall.2 hb)) i hi

namespace World

/-! ## What a step does to the slots -/

/-- The slot holds the same handle. -/
def SameSlot (e e' : HandleEntry) : Prop := e'.object = e.object ∧ e'.access = e.access

section
variable {w w' : World} {p o i : Nat} {h : Handle}
variable {op : HtOp} {v : World} {x : TableScope}

theorem SameSlot.refl (e : HandleEntry) : SameSlot e e := ⟨rfl, rfl⟩

/-- A handle in `w'` is one of `w`, or was inserted on the way. -/
def SlotsFrom (x : TableScope) (w w' : World) : Prop :=
  ∀ p i o, (w'.slot p i).object = some o →
    SameSlot (w.slot p i) (w'.slot p i) ∨ x.inserts p o (w'.slot p i).access

theorem SlotsFrom.set {q j used : Nat} {e : HandleEntry} (h : SlotsFrom x w v)
    (hh : w'.handles = (v.setTable q ((v.handles q).set j e used)).handles)
    (he : ∀ o, e.object = some o → SameSlot (w.slot q j) e ∨ x.inserts q o e.access) :
    SlotsFrom x w w' := by
  intro p i o ho
  have hs : w'.slot p i = if p = q ∧ i = j then e else v.slot p i := by
    rw [slot, hh, slots_setTable]
  rw [hs] at ho ⊢
  split at ho
  · next hc =>
    obtain ⟨rfl, rfl⟩ := hc
    rw [if_pos ⟨rfl, rfl⟩]
    exact he o ho
  · next hc =>
    rw [if_neg hc]
    exact h p i o ho

theorem SlotsFrom.transfer (h : SlotsFrom x w v) (ht : Transfer x v w') : SlotsFrom x w w' := by
  cases ht with
  | quiet hq =>
    intro p i o ho
    have hs : w'.slot p i = v.slot p i := by rw [slot, hq.handles]
    rw [hs] at ho ⊢
    exact h p i o ho
  | fill _ _ _ _ hm =>
    exact h.set (openFn_kept _ _).handles fun o ho => .inr (by cases ho; exact hm)
  | empty => exact h.set (closeFn_kept _ _).handles fun _ ho => by cases ho
  | flag => exact h.set rfl fun o ho => h _ _ o ho
  | new kind name =>
    intro p i o ho
    by_cases hp : p = v.nobj
    · simp [slot, newObject, setTable, setObj, setNext, setPrev, hp, HandleTable.init] at ho
    · have hs : (v.newObject kind name).slot p i = v.slot p i := by
        simp [slot, newObject, setTable, setObj, setNext, setPrev, hp]
      rw [hs] at ho ⊢
      exact h p i o ho

theorem htNext_slot (hr : w.htNext op = some w') (ho : (w'.slot p i).object = some o) :
    SameSlot (w.slot p i) (w'.slot p i) ∨ InsertsInto w p op ∧ ∃ a, Requests w op o a ∧
      (w'.slot p i).access = obMapGeneric (objectType (w.obj o).kind) a :=
  (htNext_transfers hr).keeps (I := SlotsFrom (w.opScope op) w) (fun _ _ hi ht => hi.transfer ht)
    (fun _ _ _ _ => .inl (SameSlot.refl _)) p i o ho

/-! ## Runs -/

/-- The masks of the slots in use have no generic right. -/
def Mapped (w : World) : Prop :=
  ∀ p i o, (w.slot p i).object = some o → Specific (w.slot p i).access

theorem blank_mapped : Mapped blank := fun _ _ _ ho => by cases ho

theorem htNext_mapped (hm : Mapped w) (hr : w.htNext op = some w') : Mapped w' := by
  intro p i o ho
  rcases htNext_slot hr ho with hs | ⟨-, a, -, ha⟩
  · rw [hs.2]
    exact hm p i o (hs.1.symm.trans ho)
  · rw [ha]
    exact obMapGeneric_specific _ a

theorem AskedWithin.le {s : Nat} {access : Access} (hm : Mapped w)
    (ha : AskedWithin w s h access) (hr : (w.handles s).resolve h = some (i, o)) :
    Mask.Le (obMapGeneric (objectType (w.obj o).kind) (asked access (w.slot s i)))
      (w.slot s i).access := by
  have ho := (resolve_eq_some.1 hr).2.2.2.1
  unfold asked
  split
  · rw [obMapGeneric_of_specific _ (hm s i o ho)]
    exact Mask.Le.refl _
  · rename_i h0
    rcases ha with ha | ha
    · exact absurd ha h0
    · exact (obMapGeneric_le_iff _ _ _).2 (ha i o hr)

theorem htNext_copies (hm : Mapped w) (hc : op.IsCopy) (hok : DupOk w op)
    (hr : w.htNext op = some w') (ho : (w'.slot p i).object = some o) :
    SameSlot (w.slot p i) (w'.slot p i) ∨ InsertsInto w p op ∧ ∃ s j, CopiesFrom w s j op ∧
      (w.slot s j).object = some o ∧ Mask.Le (w'.slot p i).access (w.slot s j).access := by
  refine (htNext_slot hr ho).imp id fun ⟨hd, a, hreq, ha⟩ => ⟨hd, ?_⟩
  rw [ha]
  cases op with
  | duplicate src h dst access =>
    obtain ⟨j, hj, rfl⟩ := hreq
    exact ⟨src, j, ⟨rfl, o, hj⟩, (resolve_eq_some.1 hj).2.2.2.1, AskedWithin.le hm hok hj⟩
  | ntDuplicate cur srcProc src dstProc access flags =>
    obtain ⟨s, j, hs, hj, rfl⟩ := hreq
    refine ⟨s, j, ⟨hs, o, hj⟩, (resolve_eq_some.1 hj).2.2.2.1, AskedWithin.le hm ?_ hj⟩
    split
    · exact .inl rfl
    · rename_i hf
      exact (hok.resolve_left hf) s hs
  | inherit src dst =>
    obtain ⟨j, hin, hj, rfl⟩ := hreq
    refine ⟨src, j, ⟨rfl, hin⟩, hj, ?_⟩
    rw [obMapGeneric_of_specific _ (hm src j o hj)]
    exact Mask.Le.refl _
  | _ => exact hc.elim

theorem htNext_copied (hm : Mapped w) (hc : op.IsCopy) (hok : DupOk w op)
    (hr : w.htNext op = some w') : Copied w op w' := by
  intro p i o hn ho
  rcases htNext_copies hm hc hok hr ho with hs | h
  · rw [hs.1, hn] at ho
    cases ho
  · exact h

theorem htNext_holdWithin {S : Set Nat} {r : Access} (hm : Mapped w) (hok : DupOk w op)
    (hin : Inside S o w op) (hw : HoldWithin S o r w) (hr : w.htNext op = some w') :
    HoldWithin S o r w' := by
  intro p hp i ho
  have hsame : SameSlot (w.slot p i) (w'.slot p i) → Mask.Le (w'.slot p i).access r := fun hs => by
    rw [hs.2]
    exact hw p hp i (hs.1.symm.trans ho)
  rcases htNext_slot hr ho with hs | ⟨hd, a, hreq, ha⟩
  · exact hsame hs
  · have hcopy : (∀ s j, CopiesFrom w s j op → (w.slot s j).object = some o → s ∈ S) →
        op.IsCopy → Mask.Le (w'.slot p i).access r := by
      intro hin hc
      rcases htNext_copies hm hc hok hr ho with hs | ⟨-, s, j, hs, hj, hle⟩
      · exact hsame hs
      · exact hle.trans (hw s (hin s j hs hj) j hj)
    cases op with
    | insert q o' access inherit protectClose => exact absurd hreq.1.symm (hin p hp hd)
    | duplicate => exact hcopy (hin p hp hd) trivial
    | ntDuplicate => exact hcopy (hin p hp hd) trivial
    | inherit => exact hcopy (hin p hp hd) trivial
    | _ => exact hreq.elim

end

end World

/-- **No copy has more rights than its source**, in every run whose duplications ask for no more:
every copying step out of a state `w` that such a run reaches is a `Copied` one; and what processes
hold on an object stays within the rights they hold on it in `w`, as long as they get it only from
one another. -/
theorem rights_not_amplified {ops₁ ops₂ : List HtOp} {w w' : World}
    (hl : Run.Legal World.htNext DupOk World.blank (ops₁ ++ ops₂))
    (hr₁ : Run.run World.htNext World.blank ops₁ = some w)
    (hr₂ : Run.run World.htNext w ops₂ = some w') :
    (∀ op w₁, op.IsCopy → DupOk w op → w.htNext op = some w₁ → Copied w op w₁) ∧
      ∀ S o r, HoldWithin S o r w → Run.Legal World.htNext (Inside S o) w ops₂ →
        HoldWithin S o r w' := by
  obtain ⟨hl1, hl2⟩ := Run.legal_append hl hr₁
  have hm : w.Mapped := Run.run_keeps (fun _ _ _ h _ hr => World.htNext_mapped h hr)
    World.blank_mapped hl1 hr₁
  refine ⟨fun op w₁ hc hok hr => World.htNext_copied hm hc hok hr, fun S o r hw hin => ?_⟩
  exact (Run.run_keeps (I := fun w => w.Mapped ∧ HoldWithin S o r w)
    (fun _ _ _ h hok hr => ⟨World.htNext_mapped h.1 hr,
      World.htNext_holdWithin h.1 hok.1 hok.2 h.2 hr⟩) ⟨hm, hw⟩ (Run.legal_and hl2 hin) hr₂).2

/-- A process holds a handle with `FILE_READ_DATA` to the file 2. -/
def readHandle : List HtOp :=
  [.createProcess [] true true false, .create .file false true,
    .insert 0 2 fileReadData false false]

/-- The process duplicates the handle with the rights it has. -/
theorem rights_not_amplified_sameAccess :
    ∃ w w', Run.run World.htNext World.blank readHandle = some w ∧
      w.htNext (.duplicate 0 (handleValue 1 1) 0 0) = some w' ∧
      Copied w (.duplicate 0 (handleValue 1 1) 0 0) w' := by
  have h1 : ((Run.run World.htNext World.blank readHandle).bind
      (·.htNext (.duplicate 0 (handleValue 1 1) 0 0))).isSome = true := by decide +kernel
  obtain ⟨w', h2⟩ := Option.isSome_iff_exists.1 h1
  obtain ⟨w, hw, hw'⟩ := Option.bind_eq_some_iff.1 h2
  have hl : Run.Legal World.htNext DupOk World.blank (readHandle ++ []) :=
    ⟨trivial, fun _ _ => ⟨trivial, fun _ _ => ⟨trivial, fun _ _ => trivial⟩⟩⟩
  exact ⟨w, w', hw, hw', (rights_not_amplified hl hw rfl).1 _ w' trivial (.inl rfl) hw'⟩

/-- The process duplicates the handle and asks for `FILE_WRITE_DATA`, which it gets. -/
theorem duplicate_amplifies :
    ∃ w w', Run.run World.htNext World.blank readHandle = some w ∧
      w.htNext (.duplicate 0 (handleValue 1 1) 0 fileWriteData) = some w' ∧
      ¬ Copied w (.duplicate 0 (handleValue 1 1) 0 fileWriteData) w' := by
  obtain ⟨w, hw, hacc, hfree, w', hw', ho, hacc'⟩ : ∃ w,
      Run.run World.htNext World.blank readHandle = some w ∧ (w.slot 0 1).access = fileReadData ∧
      (w.slot 0 2).object = none ∧
      ∃ w', w.htNext (.duplicate 0 (handleValue 1 1) 0 fileWriteData) = some w' ∧
        (w'.slot 0 2).object = some 2 ∧ (w'.slot 0 2).access = fileWriteData := by decide +kernel
  refine ⟨w, w', hw, hw', fun hc => ?_⟩
  obtain ⟨-, s, j, ⟨rfl, o, hj⟩, -, hle⟩ := hc 0 2 2 hfree ho
  rw [← (World.resolve_eq_some.1 hj).2.1, hacc', show handleIndex (handleValue 1 1) = 1 by decide,
    hacc] at hle
  exact absurd hle (by decide)

end Aegis
