import Aegis.Ob.PipeSpec
import Aegis.Ob.Proof.AccountRun
import Aegis.Ob.Proof.Transfers

/-!
# The counts of a pipe are those of its handles

A slot that is filled or emptied changes the number of slots with a right by what `pipe_open` and
`pipe_close` add or take for its access (`slotsWith_set`), and nothing else touches either.
-/

namespace Aegis

open Finset

variable {p : Nat} {op : HtOp} {s : HtState}

namespace World

variable {o x : Nat} {w : World}

section
variable {w w' : World} {p i o : Nat}

theorem slotsWith_congr (hn : w'.nobj = w.nobj) (hh : w'.handles = w.handles) (o : Nat)
    (bits : Access) : w'.slotsWith o bits = w.slotsWith o bits := by
  simp only [slotsWith, hn, hh]

theorem slotsWith_set (hp : p < w.nobj) (hi : i ∈ Finset.Ico 1 handleTableSlots) (e : HandleEntry)
    (used : Nat) (y : Nat) (bits : Access) :
    (w.setTable p ((w.handles p).set i e used)).slotsWith y bits +
        (if ((w.handles p).slots i).object = some y ∧
          ((w.handles p).slots i).access &&& bits ≠ 0 then 1 else 0) =
      w.slotsWith y bits + (if e.object = some y ∧ e.access &&& bits ≠ 0 then 1 else 0) := by
  let f : World → Nat → Nat → Nat := fun v q j =>
    if ((v.handles q).slots j).object = some y ∧ ((v.handles q).slots j).access &&& bits ≠ 0
    then 1 else 0
  let v := w.setTable p ((w.handles p).set i e used)
  have hslot : ∀ q j, (v.handles q).slots j = if q = p ∧ j = i then e else (w.handles q).slots j :=
    fun q j => slots_setTable e used q j
  -- the table's own sum, then the sum over the tables
  have ht := Count.sum_change (f := f v p) (g := f w p) hi fun j _ hj => by
    simp only [f, hslot, hj, and_false, if_false]
  have hs := Count.sum_change (s := range w.nobj)
    (f := fun q => ∑ j ∈ Finset.Ico 1 handleTableSlots, f v q j)
    (g := fun q => ∑ j ∈ Finset.Ico 1 handleTableSlots, f w q j)
    (mem_range.2 hp) fun q _ hq => by simp only [f, hslot, hq, false_and, if_false]
  have hnew : f v p i = if e.object = some y ∧ e.access &&& bits ≠ 0 then 1 else 0 := by
    simp only [f, hslot, and_self, if_true]
  have hv : v.slotsWith y bits =
      ∑ q ∈ range w.nobj, ∑ j ∈ Finset.Ico 1 handleTableSlots, f v q j := rfl
  have hw : w.slotsWith y bits =
      ∑ q ∈ range w.nobj, ∑ j ∈ Finset.Ico 1 handleTableSlots, f w q j := rfl
  have hold : f w p i = if ((w.handles p).slots i).object = some y ∧
      ((w.handles p).slots i).access &&& bits ≠ 0 then 1 else 0 := rfl
  rw [← hold, ← hnew]
  show v.slotsWith y bits + f w p i = _
  omega

theorem slotsWith_newObject (kind : ObjKind) (name : Option Name) (y : Nat) (bits : Access) :
    (w.newObject kind name).slotsWith y bits = w.slotsWith y bits := by
  show ∑ q ∈ range (w.nobj + 1), _ = _
  rw [sum_range_succ]
  have hlast : ∑ j ∈ Finset.Ico 1 handleTableSlots,
      (if (((w.newObject kind name).handles w.nobj).slots j).object = some y ∧
        (((w.newObject kind name).handles w.nobj).slots j).access &&& bits ≠ 0
      then 1 else 0) = 0 := by
    refine sum_eq_zero fun j _ => ?_
    simp [newObject, setTable, setNext, setPrev, HandleTable.init]
  rw [hlast, Nat.add_zero, slotsWith]
  refine sum_congr rfl fun q hq => ?_
  have hne : q ≠ w.nobj := (mem_range.1 hq).ne
  simp [newObject, World.setObj, setTable, setNext, setPrev, hne]

theorem slotsWith_pos {bits : Access} :
    0 < w.slotsWith o bits ↔ ∃ p < w.nobj, ∃ i ∈ Finset.Ico 1 handleTableSlots,
      ((w.handles p).slots i).object = some o ∧ ((w.handles p).slots i).access &&& bits ≠ 0 := by
  rw [slotsWith, sum_pos_iff]
  simp only [sum_pos_iff, mem_range]
  refine exists_congr fun p => and_congr_right fun _ => exists_congr fun i =>
    and_congr_right fun _ => ?_
  split <;> simp_all

end

/-! ## The hooks -/

theorem pipeOpen_counts (x : Obj) (acc : Access) :
    (pipeOpen x acc).writers = x.writers + (if acc &&& fileWriteData ≠ 0 then 1 else 0) ∧
    (pipeOpen x acc).readers = x.readers + (if acc &&& fileReadData ≠ 0 then 1 else 0) ∧
    (pipeOpen x acc).writerClosed = (if acc &&& fileWriteData ≠ 0 then false
      else x.writerClosed) := by
  unfold pipeOpen
  split_ifs <;> exact ⟨rfl, rfl, rfl⟩

theorem pipeClose_counts (x : Obj) (acc : Access) :
    (pipeClose x acc).writers = x.writers - (if acc &&& fileWriteData ≠ 0 then 1 else 0) ∧
    (pipeClose x acc).readers = x.readers - (if acc &&& fileReadData ≠ 0 then 1 else 0) ∧
    (pipeClose x acc).writerClosed = (if acc &&& fileWriteData ≠ 0 then
      x.writerClosed || x.writers - 1 == 0 else x.writerClosed) := by
  unfold pipeClose
  split_ifs <;> exact ⟨rfl, rfl, rfl⟩

theorem openFn_obj (hk : (w.obj o).kind = .pipe) (p : Nat) (t : HandleTable) (acc : Access) :
    ((w.setTable p t).openFn o acc).obj o = pipeOpen (w.obj o) acc := by simp [openFn, hk]

theorem closeFn_obj (hk : (w.obj o).kind = .pipe) (p : Nat) (t : HandleTable) (acc : Access) :
    ((w.setTable p t).closeFn o acc).obj o = pipeClose (w.obj o) acc := by simp [closeFn, hk]

theorem openFn_obj_of_ne (h : o ≠ x) (acc : Access) : (w.openFn x acc).obj o = w.obj o := by
  unfold openFn
  split
  · exact obj_setObj_of_ne _ _ _ h
  · rfl

theorem closeFn_obj_of_ne (h : o ≠ x) (acc : Access) : (w.closeFn x acc).obj o = w.obj o := by
  unfold closeFn
  split
  · exact obj_setObj_of_ne _ _ _ h
  · rfl

/-! ## The transfers -/

/-- `o` is a pipe whose counts are those of its handles. -/
structure Counted (w : World) (o : Nat) : Prop where
  lt : o < w.nobj
  kind : (w.obj o).kind = .pipe
  writers : (w.obj o).writers = w.slotsWith o fileWriteData
  readers : (w.obj o).readers = w.slotsWith o fileReadData

section
variable {w w' : World} {p i o x : Nat} {e : HandleEntry}
variable {s : TableScope}

theorem Counted.fill (h : Counted w o) (used : Nat) (hp : p < w.nobj)
    (hi : i ∈ Finset.Ico 1 handleTableSlots) (hfree : ((w.handles p).slots i).object = none)
    (he : e.object = some x) :
    Counted ((w.setTable p ((w.handles p).set i e used)).openFn x e.access) o := by
  have hk := openFn_kept (w := w.setTable p ((w.handles p).set i e used)) x e.access
  have hwr := slotsWith_set hp hi e used o fileWriteData
  have hrd := slotsWith_set hp hi e used o fileReadData
  have hcong := slotsWith_congr hk.nobj hk.handles o
  simp only [hfree, he, reduceCtorEq, false_and, if_false, Nat.add_zero, Option.some.injEq] at hwr hrd
  refine ⟨by rw [hk.nobj]; exact h.lt, by rw [hk.kind]; exact h.kind, ?_, ?_⟩
  · rw [hcong, hwr]
    by_cases hx : o = x
    · subst hx
      rw [openFn_obj h.kind, (pipeOpen_counts _ _).1, h.writers]
      simp
    · rw [openFn_obj_of_ne hx, obj_setTable, h.writers]
      simp [Ne.symm hx]
  · rw [hcong, hrd]
    by_cases hx : o = x
    · subst hx
      rw [openFn_obj h.kind, (pipeOpen_counts _ _).2.1, h.readers]
      simp
    · rw [openFn_obj_of_ne hx, obj_setTable, h.readers]
      simp [Ne.symm hx]

theorem Counted.empty (h : Counted w o) (used : Nat) (hp : p < w.nobj)
    (hi : i ∈ Finset.Ico 1 handleTableSlots) (ho : ((w.handles p).slots i).object = some x)
    (he : e.object = none) :
    Counted ((w.setTable p ((w.handles p).set i e used)).closeFn x
      ((w.handles p).slots i).access) o := by
  have hk := closeFn_kept (w := w.setTable p ((w.handles p).set i e used)) x
    ((w.handles p).slots i).access
  have hwr := slotsWith_set hp hi e used o fileWriteData
  have hrd := slotsWith_set hp hi e used o fileReadData
  have hcong := slotsWith_congr hk.nobj hk.handles o
  simp only [ho, he, reduceCtorEq, false_and, if_false, Nat.add_zero, Option.some.injEq] at hwr hrd
  refine ⟨by rw [hk.nobj]; exact h.lt, by rw [hk.kind]; exact h.kind, ?_, ?_⟩
  · rw [hcong]
    by_cases hx : o = x
    · subst hx
      rw [closeFn_obj h.kind, (pipeClose_counts _ _).1, h.writers]
      simp only [true_and] at hwr
      omega
    · rw [closeFn_obj_of_ne hx, obj_setTable, h.writers]
      simpa [Ne.symm hx] using hwr.symm
  · rw [hcong]
    by_cases hx : o = x
    · subst hx
      rw [closeFn_obj h.kind, (pipeClose_counts _ _).2.1, h.readers]
      simp only [true_and] at hrd
      omega
    · rw [closeFn_obj_of_ne hx, obj_setTable, h.readers]
      simpa [Ne.symm hx] using hrd.symm

theorem Counted.transfer (h : Counted w o) (hs : ∀ p, s.tables p → p < w.nobj)
    (ht : Transfer s w w') : Counted w' o := by
  cases ht with
  | quiet hq =>
    refine ⟨by rw [hq.nobj]; exact h.lt, by rw [hq.kind]; exact h.kind, ?_, ?_⟩
    · rw [hq.writers, slotsWith_congr hq.nobj hq.handles]
      exact h.writers
    · rw [hq.readers, slotsWith_congr hq.nobj hq.handles]
      exact h.readers
  | fill _ _ used hp _ hi hfree => exact h.fill used (hs _ hp) hi hfree rfl
  | empty used hp _ hi ho => exact h.empty used (hs _ hp) hi ho rfl
  | @flag p i inherit used hp hi =>
    have hflag := fun bits => slotsWith_set (hs p hp) hi { w.slot p i with inherit } used o bits
    refine ⟨h.lt, h.kind, ?_, ?_⟩
    · rw [Nat.add_right_cancel (hflag fileWriteData)]
      exact h.writers
    · rw [Nat.add_right_cancel (hflag fileReadData)]
      exact h.readers
  | new kind name =>
    have hobj : (w.newObject kind name).obj o = w.obj o := by
      simp [newObject, World.setObj, setTable, setNext, setPrev, h.lt.ne]
    refine ⟨Nat.lt_succ_of_lt h.lt, by rw [hobj]; exact h.kind, ?_, ?_⟩
    · rw [hobj, slotsWith_newObject]
      exact h.writers
    · rw [hobj, slotsWith_newObject]
      exact h.readers

/-- `writer_closed` exactly when there is no writer. -/
def ClosedExact (w : World) (o : Nat) : Prop :=
  (w.obj o).writerClosed = true ↔ (w.obj o).writers = 0

theorem Counted.writers_pos (h : Counted w o) (hp : p < w.nobj)
    (hi : i ∈ Finset.Ico 1 handleTableSlots) (ho : ((w.handles p).slots i).object = some o)
    (ha : ((w.handles p).slots i).access &&& fileWriteData ≠ 0) : 0 < (w.obj o).writers := by
  rw [h.writers, slotsWith_pos]
  exact ⟨p, hp, i, hi, ho, ha⟩

theorem ClosedExact.transfer (hc : ClosedExact w o) (h : Counted w o)
    (hs : ∀ p, s.tables p → p < w.nobj) (ht : Transfer s w w') : ClosedExact w' o := by
  unfold ClosedExact at hc ⊢
  cases ht with
  | quiet hq => rwa [hq.writerClosed, hq.writers]
  | @fill p i x m _ _ used hp _ hi hfree =>
    by_cases hx : o = x
    · subst hx
      obtain ⟨h1, -, h3⟩ := pipeOpen_counts (w.obj o) m
      rw [openFn_obj h.kind, h1, h3]
      split
      · simp
      · simpa using hc
    · rwa [openFn_obj_of_ne hx, obj_setTable]
  | @empty p i x used hp _ hi ho =>
    by_cases hx : o = x
    · subst hx
      obtain ⟨h1, -, h3⟩ := pipeClose_counts (w.obj o) ((w.handles p).slots i).access
      rw [closeFn_obj h.kind, h1, h3]
      split
      · next ha =>
        have hpos := h.writers_pos (hs p hp) hi ho ha
        have hopen : (w.obj o).writerClosed = false := by
          rw [← Bool.not_eq_true, hc]
          omega
        simp [hopen]
      · simpa using hc
    · rwa [closeFn_obj_of_ne hx, obj_setTable]
  | flag => exact hc
  | new kind name =>
    have hobj : (w.newObject kind name).obj o = w.obj o := by
      simp [newObject, World.setObj, setTable, setNext, setPrev, h.lt.ne]
    rwa [hobj]

theorem counted_transfers (ht : Transfers s w w') (hs : ∀ p, s.tables p → p < w.nobj)
    (h : Counted w o) : Counted w' o ∧ (ClosedExact w o → ClosedExact w' o) := by
  have hI := ht.keeps (I := fun v => w.nobj ≤ v.nobj ∧ Counted v o ∧
      (ClosedExact w o → ClosedExact v o)) (fun v v' ⟨hn, hc, hx⟩ hm => by
    have hs' : ∀ p, s.tables p → p < v.nobj := fun p hp => (hs p hp).trans_le hn
    exact ⟨hn.trans hm.nobj_le, hc.transfer hs' hm, fun h => (hx h).transfer hc hs' hm⟩)
    ⟨le_rfl, h, id⟩
  exact hI.2

end

/-! ## Creating a pipe -/

section
variable {w w' : World} {own : Nat → Nat} {p o : Nat}

theorem newObject_counted (h : Accounts w own) : Counted (w.newObject .pipe none) w.nobj := by
  have hobj : (w.newObject .pipe none).obj w.nobj =
      ⟨.pipe, [], 1, 0, false, none, 0, 0, false, 0⟩ := by
    simp [newObject, World.setObj, setTable, setNext, setPrev, truncate]
  have hnone : ∀ bits, w.slotsWith w.nobj bits = 0 := by
    intro bits
    by_contra hne
    obtain ⟨q, hq, i, hi, ho, -⟩ := slotsWith_pos.1 (Nat.pos_of_ne_zero hne)
    exact absurd (h.slot_live hq hi ho).1 (Nat.lt_irrefl _)
  refine ⟨Nat.lt_succ_self _, by rw [hobj], ?_, ?_⟩ <;>
  · rw [hobj, slotsWith_newObject, hnone]

theorem htInsertEx_closedExact (hk : (w.obj o).kind = .pipe) {access : Access}
    (ha : obMapGeneric (objectType .pipe) access &&& fileWriteData ≠ 0)
    {inherit protectClose : Bool}
    (hs : (w.htInsertEx p o access inherit protectClose).1 = .success) :
    ClosedExact (w.htInsertEx p o access inherit protectClose).2.2 o := by
  rcases htInsertEx_cases w p o access inherit protectClose with ⟨-, he⟩ | ⟨i, -, -, -, he⟩
  · rw [he] at hs
    cases hs
  · have hk' : (((w.obReference o).incHandleCount o).obj o).kind = .pipe := by
      rw [(incHandleCount_kept o).kind, (obReference_kept o).kind]
      exact hk
    rw [he, hk]
    unfold ClosedExact
    rw [openFn_obj hk', (pipeOpen_counts _ _).1, (pipeOpen_counts _ _).2.2, if_pos ha, if_pos ha]
    simp

/-- `NtCreatePipe` inserts into the table of the current process. -/
def pipeScope (cur : Option Nat) : TableScope :=
  ⟨(cur = some ·), fun _ => False, fun q _ _ => cur = some q⟩

theorem pipeHandles_spec (h : Accounts w (gain own o)) (hp : p < w.nobj) (hc : Counted w o) :
    ∃ st r1 r2 w', w.pipeHandles p o = .ok (st, r1, r2, w') ∧ Accounts w' own ∧
      Transfers (pipeScope (some p)) w w' ∧ (st = .success → Counted w' o ∧ ClosedExact w' o) := by
  have hlive : w.Live o := h.live (by simp [refs])
  obtain ⟨h1, hn1⟩ := htInsertEx_accounts h hp hlive fileReadData false false
  have hin : ∀ v access, Transfers (pipeScope (some p)) v (v.htInsertEx p o access false false).2.2 :=
    fun v access => htInsertEx_transfers access rfl rfl false false
  have hlt : ∀ q, (pipeScope (some p)).tables q → q < w.nobj := fun q hq => by
    cases hq
    exact hp
  have ht1 := hin w fileReadData
  unfold pipeHandles
  simp only [htInsert]
  obtain ⟨r, hr⟩ : ∃ r, w.htInsertEx p o fileReadData false false = r := ⟨_, rfl⟩
  rw [hr] at h1 hn1 ht1
  simp only [hr]
  split
  · next hs =>
    obtain ⟨w2, hw2, h2⟩ := obDereference_accounts h1
    refine ⟨r.1, r.2.1, none, w2, by rw [hw2]; rfl, h2, ht1.trans
      (obDereference_quiet hw2).transfers, fun hst => ?_⟩
    exact absurd hst ((ntSuccess_eq_false _).1 hs)
  · have hp1 : p < r.2.2.nobj := by
      rw [hn1]
      exact hp
    have hc1 := (counted_transfers ht1 hlt hc).1
    have hlive1 : r.2.2.Live o := h1.live (by simp [refs])
    obtain ⟨h2, -⟩ := htInsertEx_accounts h1 hp1 hlive1 fileWriteData false false
    have ht2 := hin r.2.2 fileWriteData
    have hlt1 : ∀ q, (pipeScope (some p)).tables q → q < r.2.2.nobj := by rwa [hn1]
    have hc2 := (counted_transfers ht2 hlt1 hc1).1
    obtain ⟨w3, hw3, h3⟩ := obDereference_accounts h2
    have ht3 : Transfers (pipeScope none) _ w3 := (obDereference_quiet hw3).transfers
    have h3c := counted_transfers ht3 (fun _ hq => by cases hq) hc2
    refine ⟨_, r.2.1, _, w3, by rw [hw3]; rfl, h3, (ht1.trans ht2).trans (obDereference_quiet hw3).transfers,
      fun hst =>
      ⟨h3c.1, h3c.2 ?_⟩⟩
    exact htInsertEx_closedExact hc1.kind (by decide) hst

theorem ntCreatePipe_spec (h : Accounts w own) {cur : Option Nat}
    (hcur : ∀ c ∈ cur, c < w.nobj) (heap : Bool) :
    ∃ st r1 r2 w', w.ntCreatePipe cur heap = .ok (st, r1, r2, w') ∧ Accounts w' own ∧
      Transfers (pipeScope cur) w w' ∧ (st = .success → Counted w' w.nobj ∧ ClosedExact w' w.nobj) := by
  cases heap with
  | false => exact ⟨_, _, _, w, rfl, h, .refl, by simp⟩
  | true =>
    have h1 := newObject_accounts h .pipe none
    have ht1 : Transfers (pipeScope cur) w (w.newObject .pipe none) := .single (.new .pipe none)
    cases cur with
    | none =>
      obtain ⟨w2, hw2, h2⟩ := obDereference_accounts h1
      refine ⟨.invalidHandle, none, none, w2, ?_, h2,
        ht1.trans (obDereference_quiet hw2).transfers, by simp⟩
      show ((w.newObject .pipe none).obDereference w.nobj >>= _) = _
      rw [hw2]
      rfl
    | some p =>
      obtain ⟨st, r1, r2, w', he, h2, ht2, hs⟩ := pipeHandles_spec h1
        (Nat.lt_succ_of_lt (hcur p rfl)) (newObject_counted h)
      exact ⟨st, r1, r2, w', he, h2, ht1.trans ht2, hs⟩

end

end World

/-! ## Reading -/

/-- A read of an empty pipe ends at once exactly if the pipe is closed or nothing was asked for. -/
theorem readsEof_iff {p : Pipe} (hu : p.ring.used = 0) (n : Nat) :
    p.ReadsEof n ↔ n = 0 ∨ p.writerClosed = true := by
  unfold Pipe.ReadsEof Pipe.pipeRead
  cases n with
  | zero => simp [Pipe.readLoop, PipeSys.readStatus]
  | succ n =>
    cases hc : p.writerClosed with
    | false => simp [Pipe.readLoop, Pipe.readRound, hu, hc]
    | true => simp [Pipe.readLoop, Pipe.readRound, hu, hc, PipeSys.readStatus]

/-! ## Runs -/

theorem World.argProcess_lt {w : World} {own : Nat → Nat} (h : World.Accounts w own)
    {cur : Option Nat} (hcur : ∀ c ∈ cur, c < w.nobj) {hd : Handle}
    (hp : w.argProcess cur hd = some p) : p < w.nobj := by
  unfold World.argProcess World.processArg at hp
  split at hp
  · exact hcur p hp
  · split at hp
    · cases hp
    · next c =>
      rcases World.htLookupEx_cases w c hd processDupHandle (some .process) with
        ⟨st, -, he⟩ | ⟨i, o, hr, -, -, he⟩
      · simp [he] at hp
      · obtain ⟨hi, -, -, ho, -⟩ := World.resolve_eq_some.1 hr
        simp only [he, Option.map_some, Option.some.injEq] at hp
        rw [← hp]
        exact (h.slot_live (hcur c rfl) hi ho).1

theorem HtOk.tables_lt (hacc : World.Accounts s.world s.own) (hok : HtOk s op)
    (hp : (s.world.opScope op).tables p) : p < s.world.nobj := by
  rcases hp with hp | hp | ⟨h, inherit, rfl⟩
  · cases op with
    | close => exact hp ▸ hok
    | destroy => exact hp ▸ hok
    | ntDuplicate => exact World.argProcess_lt hacc hok hp
    | _ => exact hp.elim
  · cases op with
    | insert => exact hp ▸ hok.1
    | duplicate => exact hp ▸ hok.2
    | inherit => exact hp ▸ hok.2
    | ntDuplicate => exact World.argProcess_lt hacc hok hp
    | _ => exact hp.elim
  · exact hok

theorem ownStep_inv {s' : HtState} (h : ownStep s op = some s') :
    ∃ l, s.world.htStep op = .ok (s'.world, l) := by
  simp only [ownStep, Option.map_eq_some_iff, Outcome.get?_eq_some] at h
  obtain ⟨⟨w', l⟩, hr, rfl⟩ := h
  exact ⟨l, hr⟩

/-- The accounts of the objects, and the ends of the pipes. -/
structure PipesExact (s : PipeState) : Prop where
  accounts : World.Accounts s.ht.world s.ht.own
  pipes : ∀ o ∈ s.pipes, World.Counted s.ht.world o ∧ World.ClosedExact s.ht.world o

theorem pipeStep_exact (s : PipeState) (op : PipeHtOp) (h : PipesExact s) (hok : PipeHtOk s op) :
    ∃ s', pipeStep s op = some s' ∧ PipesExact s' := by
  cases op with
  | ht op =>
    obtain ⟨t, ht, hacc⟩ := ownStep_accounts h.accounts hok
    obtain ⟨l, hl⟩ := ownStep_inv ht
    refine ⟨{ s with ht := t }, by simp [pipeStep, ht], hacc, fun o ho => ?_⟩
    obtain ⟨hc, hx⟩ := h.pipes o ho
    have hc' := World.counted_transfers (World.htStep_transfers hl)
      (fun _ => HtOk.tables_lt h.accounts hok) hc
    exact ⟨hc'.1, hc'.2 hx⟩
  | createPipe cur heap =>
    obtain ⟨st, r1, r2, w', hr, hacc, htr, hnew⟩ := World.ntCreatePipe_spec h.accounts hok heap
    refine ⟨_, by simp only [pipeStep, hr]; rfl, hacc, fun o ho => ?_⟩
    have hold : ∀ o ∈ s.pipes, World.Counted w' o ∧ World.ClosedExact w' o := fun o ho =>
      have hc' := World.counted_transfers htr (fun p hp => hok p hp) (h.pipes o ho).1
      ⟨hc'.1, hc'.2 (h.pipes o ho).2⟩
    simp only at ho
    split at ho
    · next hst =>
      rcases List.mem_cons.1 ho with rfl | ho
      · exact hnew hst
      · exact hold o ho
    · exact hold o ho

/-- **Pipe end of file.** After every legal run, the counts of every pipe that `NtCreatePipe` made
are those of its handles, and a read of at least one byte from it while it is empty ends with
end-of-file, without blocking, exactly if no handle can write to it. -/
theorem pipe_eof_exact {ops : List PipeHtOp}
    (hl : Run.Legal pipeStep PipeHtOk ⟨⟨World.blank, fun _ => 0⟩, []⟩ ops) :
    ∃ s, Run.run pipeStep ⟨⟨World.blank, fun _ => 0⟩, []⟩ ops = some s ∧
      ∀ o ∈ s.pipes, PipeEnds s.ht.world o ∧
        ∀ (p : Pipe) (n : Nat), p.ring.used = 0 →
          p.writerClosed = (s.ht.world.obj o).writerClosed → 1 ≤ n →
          (p.ReadsEof n ↔ ¬ s.ht.world.Writable o) := by
  obtain ⟨s, hr, h⟩ := Run.run_inv (I := PipesExact) pipeStep_exact
    ⟨World.blank_accounts, by simp⟩ hl
  refine ⟨s, hr, fun o ho => ?_⟩
  obtain ⟨hc, hx⟩ := h.pipes o ho
  refine ⟨⟨hc.writers, hc.readers, hx⟩, fun p n hu hp hn => ?_⟩
  rw [readsEof_iff hu, hp]
  have hx' : (s.ht.world.obj o).writerClosed = true ↔ (s.ht.world.obj o).writers = 0 := hx
  rw [hx', hc.writers, World.Writable, ← World.slotsWith_pos]
  omega

/-- A process makes a pipe, hands down its ends and closes its own. -/
def pipeOps : List PipeHtOp :=
  [.ht (.createProcess [] true true true), .ht (.createProcess [] true true true),
    .createPipe (some 0) true, .ht (.setInherit 0 (handleValue 2 1) true), .ht (.inherit 0 2),
    .ht (.close 0 (handleValue 2 1)), .ht (.destroy 2)]

theorem pipe_eof_exact_handedDown :
    ∃ s, Run.run pipeStep ⟨⟨World.blank, fun _ => 0⟩, []⟩ pipeOps = some s ∧
      ∀ o ∈ s.pipes, PipeEnds s.ht.world o ∧
        ∀ (p : Pipe) (n : Nat), p.ring.used = 0 →
          p.writerClosed = (s.ht.world.obj o).writerClosed → 1 ≤ n →
          (p.ReadsEof n ↔ ¬ s.ht.world.Writable o) :=
  pipe_eof_exact (by decide +kernel)

/-- A read of no bytes ends with end-of-file also while a handle can write. -/
theorem pipe_read_none_eof :
    ∃ s, Run.run pipeStep ⟨⟨World.blank, fun _ => 0⟩, []⟩
        [.ht (.createProcess [] true true true), .createPipe (some 0) true] = some s ∧
      2 ∈ s.pipes ∧ s.ht.world.Writable 2 ∧
      Pipe.init.writerClosed = (s.ht.world.obj 2).writerClosed ∧ Pipe.init.ReadsEof 0 :=
  ⟨_, rfl, by decide +kernel, ⟨0, by decide +kernel, 2, by decide +kernel, by decide +kernel⟩,
    by decide +kernel, Pipe.init, rfl⟩

end Aegis
