import Aegis.Ob.RightsSpec
import Aegis.Ob.Proof.Cases

/-!
# The transfers the handle-table operations are made of

Apart from references (`Quiet`: the tables and the pipe ends stay as they are), an operation fills
a free slot and calls `open_fn`, or empties one and calls `close_fn`, with the access of the slot;
it changes the flags of a slot, or makes an object. `Transfers` is any sequence of these. Which
tables and handles they are about depends on the operation (`opScope`).
-/

namespace Aegis

open Outcome

/-- The tables that are written to, those in which handles are closed, and the handles that are
inserted, with their masks. -/
structure TableScope where
  tables : Nat → Prop
  closes : Nat → Prop
  inserts : Nat → Nat → Access → Prop

namespace World

/-- The same tables and pipe ends. -/
structure Quiet (w w' : World) : Prop where
  nobj : w'.nobj = w.nobj
  handles : w'.handles = w.handles
  kind : ∀ o, (w'.obj o).kind = (w.obj o).kind
  readers : ∀ o, (w'.obj o).readers = (w.obj o).readers
  writers : ∀ o, (w'.obj o).writers = (w.obj o).writers
  writerClosed : ∀ o, (w'.obj o).writerClosed = (w.obj o).writerClosed

/-- What a call does to the tables, part by part. -/
inductive Transfer (x : TableScope) : World → World → Prop
  | quiet {w w' : World} (h : Quiet w w') : Transfer x w w'
  | fill {w : World} {p i o : Nat} {m : Access} (inherit protectClose : Bool) (used : Nat)
      (hp : x.tables p) (hm : x.inserts p o m) (hi : i ∈ Finset.Ico 1 handleTableSlots)
      (hfree : ((w.handles p).slots i).object = none) :
      Transfer x w ((w.setTable p ((w.handles p).set i
        (filled ((w.handles p).slots i) o m inherit protectClose) used)).openFn o m)
  | empty {w : World} {p i o : Nat} (used : Nat) (hp : x.tables p) (hc : x.closes p)
      (hi : i ∈ Finset.Ico 1 handleTableSlots) (ho : ((w.handles p).slots i).object = some o) :
      Transfer x w ((w.setTable p ((w.handles p).set i (emptied ((w.handles p).slots i))
        used)).closeFn o ((w.handles p).slots i).access)
  | flag {w : World} {p i : Nat} (inherit : Bool) (used : Nat) (hp : x.tables p)
      (hi : i ∈ Finset.Ico 1 handleTableSlots) :
      Transfer x w (w.setTable p ((w.handles p).set i { (w.handles p).slots i with inherit } used))
  | new {w : World} (kind : ObjKind) (name : Option Name) : Transfer x w (w.newObject kind name)

abbrev Transfers (x : TableScope) : World → World → Prop := Relation.ReflTransGen (Transfer x)

section
variable {x : TableScope} {w w' : World} {p o i : Nat}
variable {heap : Bool} {h : Handle} {st : Status} {r : Option Nat}

theorem Transfers.keeps {I : World → Prop} (h : Transfers x w w')
    (hone : ∀ w w', I w → Transfer x w w' → I w') (hw : I w) : I w' := by
  induction h with
  | refl => exact hw
  | tail _ h ih => exact hone _ _ ih h

theorem Transfer.nobj_le (h : Transfer x w w') : w.nobj ≤ w'.nobj := by
  cases h with
  | quiet h => exact h.nobj.ge
  | fill => rw [(openFn_kept _ _).nobj, nobj_setTable]
  | empty => rw [(closeFn_kept _ _).nobj, nobj_setTable]
  | flag => exact Nat.le_refl _
  | new kind name => exact Nat.le_succ _

/-! ## References -/

theorem Quiet.transfers (h : Quiet w w') : Transfers x w w' := .single (.quiet h)

theorem setObj_quiet {y : Obj} (hk : y.kind = (w.obj o).kind) (hr : y.readers = (w.obj o).readers)
    (hw : y.writers = (w.obj o).writers) (hc : y.writerClosed = (w.obj o).writerClosed) :
    Quiet w (w.setObj o y) := by
  refine ⟨rfl, rfl, fun o' => ?_, fun o' => ?_, fun o' => ?_, fun o' => ?_⟩ <;>
  · rw [obj_setObj]
    split
    · rename_i h
      subst h
      assumption
    · rfl

theorem Quiet.trans {w1 w2 w3 : World} (h : Quiet w1 w2) (h' : Quiet w2 w3) : Quiet w1 w3 where
  nobj := h'.nobj.trans h.nobj
  handles := h'.handles.trans h.handles
  kind o := (h'.kind o).trans (h.kind o)
  readers o := (h'.readers o).trans (h.readers o)
  writers o := (h'.writers o).trans (h.writers o)
  writerClosed o := (h'.writerClosed o).trans (h.writerClosed o)

theorem Quiet.refl (w : World) : Quiet w w :=
  ⟨rfl, rfl, fun _ => rfl, fun _ => rfl, fun _ => rfl, fun _ => rfl⟩

theorem obDereference_quiet (h : w.obDereference o = .ok w') : Quiet w w' :=
  obDereference_rel (R := Quiet) (fun _ _ _ => Quiet.trans)
    (fun _ _ _ h => setObj_quiet h.kind h.readers h.writers h.writerClosed) Quiet.refl h

theorem obDereferenceOpt_quiet {q : Option Nat} (h : w.obDereferenceOpt q = .ok w') :
    Quiet w w' := by
  cases q with
  | none => cases h; exact .refl _
  | some o => exact obDereference_quiet h

theorem obReference_quiet (w : World) (o : Nat) : Quiet w (w.obReference o) :=
  setObj_quiet rfl rfl rfl rfl

theorem references_quiet (l : List (Nat × Access)) :
    Quiet w (l.foldl (fun w x => w.obReference x.1) w) := by
  induction l generalizing w with
  | nil => exact Quiet.refl w
  | cons x l ih => exact (obReference_quiet w x.1).trans ih

theorem htLookupEx_quiet (p : Nat) (h : Handle) (required : Access) (expect : Option ObjKind) :
    Quiet w (w.htLookupEx p h required expect).2.2 := by
  rcases htLookupEx_cases w p h required expect with ⟨st, -, he⟩ | ⟨i, o, -, -, -, he⟩
  · rw [he]
    exact .refl w
  · rw [he]
    exact obReference_quiet w o

theorem processArg_quiet (cur : Option Nat) (h : Handle) (right : Access) :
    Quiet w (w.processArg cur h right).2.2 := by
  unfold processArg
  split
  · exact .refl _
  · split
    · exact .refl _
    · exact htLookupEx_quiet _ h right _

theorem Quiet.argProcess (hq : Quiet w w') (cur : Option Nat) (h : Handle) :
    w'.argProcess cur h = w.argProcess cur h := by
  unfold World.argProcess processArg
  split
  · rfl
  · split
    · rfl
    · simp only [htLookupEx, hq.handles, hq.kind]
      split
      · rfl
      · split_ifs <;> rfl

/-! ## The operations -/

theorem htInsertEx_transfers (access : Access) (hp : x.tables p)
    (hm : x.inserts p o (obMapGeneric (objectType (w.obj o).kind) access))
    (inherit protectClose : Bool) :
    Transfers x w (w.htInsertEx p o access inherit protectClose).2.2 := by
  rcases htInsertEx_cases w p o access inherit protectClose with ⟨-, he⟩ | ⟨i, -, hi, hn, he⟩
  · rw [he]
  · rw [he]
    have hq : Quiet w ((w.obReference o).incHandleCount o) :=
      (obReference_quiet w o).trans (setObj_quiet rfl rfl rfl rfl)
    exact hq.transfers.trans (.single (Transfer.fill (w := (w.obReference o).incHandleCount o)
      _ _ _ hp hm hi hn))

theorem release_transfers (hp : x.tables p) (hc : x.closes p)
    (hi : i ∈ Finset.Ico 1 handleTableSlots) (ho : ((w.handles p).slots i).object = some o)
    (used : Nat)
    (h : (w.setTable p ((w.handles p).set i (emptied ((w.handles p).slots i)) used)).releaseHandle
      o ((w.handles p).slots i).access = .ok w') : Transfers x w w' := by
  refine (Relation.ReflTransGen.single (.empty used hp hc hi ho)).trans (Quiet.transfers ?_)
  have hdec : ∀ v : World, Quiet v (v.decHandleCount o) := fun v => setObj_quiet rfl rfl rfl rfl
  exact (hdec _).trans (obDereference_quiet h)

theorem htClose_transfers (hp : x.tables p) (hc : x.closes p) (hr : w.htClose p h = .ok (st, w')) :
    Transfers x w w' := by
  rcases htClose_cases w p h with ⟨-, he⟩ | ⟨i, o, hres, ⟨-, he⟩ | ⟨-, he⟩⟩
  · rw [he] at hr
    cases hr
    exact .refl
  · rw [he] at hr
    cases hr
    exact .refl
  · obtain ⟨hi, -, -, ho, -⟩ := resolve_eq_some.1 hres
    rw [he, bind_eq_ok] at hr
    obtain ⟨w1, h1, h2⟩ := hr
    cases h2
    exact release_transfers hp hc hi ho _ h1

theorem destroyLoop_transfers (k : Nat) (hp : x.tables p) (hc : x.closes p)
    (h : destroyLoop p k w = .ok w') : Transfers x w w' := by
  induction k generalizing w with
  | zero => cases h
  | succ k ih =>
    simp only [destroyLoop] at h
    split at h
    · cases h
      exact .refl
    · rename_i i hf
      obtain ⟨hi, o, ho⟩ := firstUsed_spec hf
      rw [ho] at h
      obtain ⟨w1, h1, h2⟩ := bind_eq_ok.1 h
      exact (release_transfers hp hc hi ho _ h1).trans (ih h2)

/-- The rights a duplication of the slot `e` asks for. -/
def asked (access : Access) (e : HandleEntry) : Access := if access = 0 then e.access else access

theorem htDuplicate_transfers {dst : Nat} {access : Access} (hp : x.tables dst)
    (hm : ∀ i o, (w.handles p).resolve h = some (i, o) →
      x.inserts dst o (obMapGeneric (objectType (w.obj o).kind) (asked access (w.slot p i))))
    {out : Option Handle} (hr : w.htDuplicate p h dst access = .ok (st, out, w')) :
    Transfers x w w' := by
  rcases htDuplicate_cases w p h dst access with ⟨st, -, he⟩ | ⟨i, o, hres, he⟩
  · rw [he] at hr
    cases hr
    exact .refl
  · rw [he, bind_eq_ok] at hr
    obtain ⟨w1, h1, h2⟩ := hr
    cases h2
    have hins := htInsertEx_transfers (w := w.obReference o) _ hp
      (by rw [(obReference_quiet w o).kind]; exact hm i o hres) false false
    exact ((obReference_quiet w o).transfers.trans hins).trans (obDereference_quiet h1).transfers

theorem inheritLoop_transfers {l : List (Nat × Access)} {st' : Status} (hp : x.tables p)
    (hm : ∀ y ∈ l, x.inserts p y.1 (obMapGeneric (objectType (w.obj y.1).kind) y.2))
    (h : inheritLoop p l st w = .ok (st', w')) : Transfers x w w' := by
  induction l generalizing w st with
  | nil => cases h; exact .refl
  | cons y l ih =>
    simp only [inheritLoop, bind_eq_ok] at h
    obtain ⟨w1, h1, h2⟩ := h
    refine ((htInsertEx_transfers _ hp (hm y List.mem_cons_self) true false).trans
      (obDereference_quiet h1).transfers).trans (ih (fun z hz => ?_) h2)
    rw [(obDereference_quiet h1).kind, htInsertEx_kind]
    exact hm z (List.mem_cons_of_mem _ hz)

theorem htSetInherit_transfers (hp : x.tables p) (h : Handle) (inherit : Bool) :
    Transfers x w (w.htSetInherit p h inherit).2 := by
  rcases htSetInherit_cases w p h inherit with ⟨-, he⟩ | ⟨i, o, hr, he⟩
  · rw [he]
  · rw [he]
    exact .single (.flag _ _ hp (resolve_eq_some.1 hr).1)

theorem inheritResult_transfers (hp : x.tables p) (flags : BitVec 32) (out : Option Handle) :
    Transfers x w (w.inheritResult p flags out) := by
  cases out with
  | none => exact .refl
  | some h =>
    simp only [inheritResult]
    split
    · exact htSetInherit_transfers hp h true
    · exact .refl

theorem createObject_transfers {kind : ObjKind} {permanent : Bool}
    (h : w.createObject kind permanent heap = .ok (r, w')) : Transfers x w w' := by
  cases heap with
  | false => cases h; exact .refl
  | true =>
    cases h
    have hq : Quiet (w.newObject kind none) ((w.newObject kind none).setObj w.nobj
        { (w.newObject kind none).obj w.nobj with permanent }) := setObj_quiet rfl rfl rfl rfl
    exact (Relation.ReflTransGen.single (.new kind none)).trans hq.transfers

theorem pspCreateProcess_transfers {name : Name} {tokenHeap listed : Bool}
    (h : w.pspCreateProcess name heap tokenHeap listed = .ok (r, w')) : Transfers x w w' := by
  cases heap with
  | false => cases h; exact .refl
  | true =>
    have h1 : Transfers x w _ := .single (.new .process (some name))
    cases tokenHeap with
    | false =>
      obtain ⟨w1, hd, h2⟩ := bind_eq_ok.1
        (show ((w.newObject .process (some name)).obDereference w.nobj >>= _) = _ from h)
      cases h2
      exact h1.trans (obDereference_quiet hd).transfers
    | true =>
      have h2 := h1.trans (.single (.new .token none))
      have hq : ∀ v : World, Quiet v (v.setObj w.nobj { v.obj w.nobj with
          token := some (w.newObject .process (some name)).nobj }) :=
        fun v => setObj_quiet rfl rfl rfl rfl
      cases listed with
      | false =>
        cases h
        exact h2.trans (hq _).transfers
      | true =>
        cases h
        exact (h2.trans (hq _).transfers).trans (obReference_quiet _ w.nobj).transfers

end

/-! ## What an operation is about -/

/-- The step closes handles of the table of `p`. -/
def ClosesIn (w : World) (p : Nat) : HtOp → Prop
  | .close q _ | .destroy q => p = q
  | .ntDuplicate cur srcProc _ _ _ _ => w.argProcess cur srcProc = some p
  | _ => False

/-- What a step asks to be inserted. -/
def Requests (w : World) : HtOp → Nat → Access → Prop
  | .insert _ o access _ _, o', a => o' = o ∧ a = access
  | .duplicate src h _ access, o, a =>
    ∃ i, (w.handles src).resolve h = some (i, o) ∧ a = asked access (w.slot src i)
  | .ntDuplicate cur srcProc src _ access flags, o, a =>
    ∃ s i, w.argProcess cur srcProc = some s ∧ (w.handles s).resolve src = some (i, o) ∧
      a = asked (if flags &&& duplicateSameAccess ≠ 0 then 0 else access) (w.slot s i)
  | .inherit src _, o, a => ∃ i, (w.slot src i).inherit = true ∧
      (w.slot src i).object = some o ∧ a = (w.slot src i).access
  | _, _, _ => False

/-- The tables that a call may change. -/
def opScope (w : World) (op : HtOp) : TableScope where
  tables p := ClosesIn w p op ∨ InsertsInto w p op ∨ ∃ h inherit, op = .setInherit p h inherit
  closes p := ClosesIn w p op
  inserts p o m := InsertsInto w p op ∧ ∃ a, Requests w op o a ∧
    m = obMapGeneric (objectType (w.obj o).kind) a

section
variable {w w' : World}

theorem ntDuplicateObject_transfers {cur : Option Nat} {srcProc src dstProc : Handle}
    {access : Access} {flags : BitVec 32} {st : Status} {out : Option Handle}
    (h : w.ntDuplicateObject cur srcProc src dstProc access flags = .ok (st, out, w')) :
    Transfers (w.opScope (.ntDuplicate cur srcProc src dstProc access flags)) w w' := by
  simp only [ntDuplicateObject] at h
  have hq1 := processArg_quiet (w := w) cur srcProc processDupHandle
  have hs : (w.processArg cur srcProc processDupHandle).2.1 = w.argProcess cur srcProc := rfl
  generalize w.processArg cur srcProc processDupHandle = r1 at h hq1 hs
  obtain ⟨st1, sp, w1⟩ := r1
  split at h
  · cases h
    exact hq1.transfers
  have hq2 := hq1.trans (processArg_quiet (w := w1) cur dstProc processDupHandle)
  have hd : (w1.processArg cur dstProc processDupHandle).2.1 = w.argProcess cur dstProc :=
    hq1.argProcess cur dstProc
  simp only at h hq2 hs
  generalize w1.processArg cur dstProc processDupHandle = r2 at h hq2 hd
  obtain ⟨st2, dp, w2⟩ := r2
  split at h
  · obtain ⟨w3, h3, h4⟩ := bind_eq_ok.1 h
    cases h4
    exact (hq2.trans (obDereferenceOpt_quiet h3)).transfers
  obtain ⟨⟨st3, out3, w3⟩, h3, h4⟩ := bind_eq_ok.1 h
  obtain ⟨w4, h5, h6⟩ := bind_eq_ok.1 h4
  obtain ⟨w5, h7, h8⟩ := bind_eq_ok.1 h6
  cases h8
  refine (hq2.transfers.trans ?_).trans
    ((obDereferenceOpt_quiet h5).trans (obDereferenceOpt_quiet h7)).transfers
  rcases sp with _ | s
  · cases h3
    exact .refl
  rcases dp with _ | d
  · cases h3
    exact .refl
  obtain ⟨⟨st4, out4, w6⟩, h9, h10⟩ := bind_eq_ok.1
    (show (w2.htDuplicate s src d _ >>= _) = _ from h3)
  have htd : (w.opScope (.ntDuplicate cur srcProc src dstProc access flags)).tables d :=
    .inr (.inl hd.symm)
  -- the tables are those of the first state
  have hm := (htDuplicate_transfers htd (fun i o hres => ⟨hd.symm, _, ⟨s, i, hs.symm,
    by rwa [hq2.handles] at hres, rfl⟩, by rw [hq2.kind, slot, slot, hq2.handles]⟩) h9).trans
      (inheritResult_transfers htd flags out4)
  simp only at h10
  split at h10
  · obtain ⟨⟨st5, w5⟩, h11, h12⟩ := bind_eq_ok.1 h10
    cases h12
    exact hm.trans (htClose_transfers (.inl hs.symm) hs.symm h11)
  · cases h10
    exact hm

theorem htStep_transfers {op : HtOp} {l : List Nat} (h : w.htStep op = .ok (w', l)) :
    Transfers (w.opScope op) w w' := by
  cases op with
  | create kind permanent heap =>
    obtain ⟨⟨r, w1⟩, h1, h2⟩ := bind_eq_ok.1 h
    cases h2
    exact createObject_transfers h1
  | createProcess name heap tokenHeap listed =>
    obtain ⟨⟨r, w1⟩, h1, h2⟩ := bind_eq_ok.1 h
    cases h2
    exact pspCreateProcess_transfers h1
  | insert p o access inherit protectClose =>
    cases h
    have hp : (w.opScope (.insert p o access inherit protectClose)).tables p := .inr (.inl rfl)
    exact htInsertEx_transfers _ hp ⟨rfl, _, ⟨rfl, rfl⟩, rfl⟩ inherit protectClose
  | lookup p hd required expect =>
    cases h
    exact (htLookupEx_quiet p hd required expect).transfers
  | close p hd =>
    obtain ⟨⟨st, w1⟩, h1, h2⟩ := bind_eq_ok.1 h
    cases h2
    exact htClose_transfers (.inl rfl) rfl h1
  | duplicate src hd dst access =>
    obtain ⟨⟨st, out, w1⟩, h1, h2⟩ := bind_eq_ok.1 h
    cases h2
    exact htDuplicate_transfers (.inr (.inl rfl)) (fun i o hr => ⟨rfl, _, ⟨i, hr, rfl⟩, rfl⟩) h1
  | ntDuplicate cur srcProc src dstProc access flags =>
    obtain ⟨⟨st, out, w1⟩, h1, h2⟩ := bind_eq_ok.1 h
    cases h2
    exact ntDuplicateObject_transfers h1
  | inherit src dst =>
    obtain ⟨⟨st, w1⟩, h1, h2⟩ := bind_eq_ok.1 h
    cases h2
    have hq := references_quiet (w := w) (inheritable (w.handles src))
    refine hq.transfers.trans (inheritLoop_transfers (.inr (.inl rfl)) (fun y hy => ?_) h1)
    obtain ⟨i, -, hin, ho, ha⟩ := mem_inheritable hy
    exact ⟨rfl, y.2, ⟨i, hin, ho, ha.symm⟩, by rw [hq.kind]⟩
  | setInherit p hd inherit =>
    cases h
    have hp : (w.opScope (.setInherit p hd inherit)).tables p := .inr (.inr ⟨hd, inherit, rfl⟩)
    exact htSetInherit_transfers hp hd inherit
  | destroy p =>
    obtain ⟨w1, h1, h2⟩ := bind_eq_ok.1 h
    cases h2
    exact destroyLoop_transfers _ (.inl rfl) rfl h1
  | reference o =>
    cases h
    exact (obReference_quiet _ o).transfers
  | dereference o =>
    obtain ⟨w1, h1, h2⟩ := bind_eq_ok.1 h
    cases h2
    exact (obDereference_quiet h1).transfers

theorem htNext_transfers {op : HtOp} (h : w.htNext op = some w') :
    Transfers (w.opScope op) w w' := by
  simp only [htNext, Option.map_eq_some_iff, Prod.exists, exists_and_right, exists_eq_right,
    get?_eq_some] at h
  obtain ⟨l, hr⟩ := h
  exact htStep_transfers hr

end

end World

end Aegis
