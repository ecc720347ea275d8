import Aegis.Ke.Proof.FileCall
import Aegis.Ob.Proof.Generation
import Aegis.Ob.Proof.Rights

/-!
# The two access checks of a file

The slot of a handle holds the mapped mask and the file object the mask as it was asked for.
`access_agrees_iff`: the calls allow what the mapped mask says exactly for the masks in which
`GENERIC_ALL` and `FILE_APPEND_DATA` do not stand alone.
-/

namespace Aegis

/-- Nothing behind the file objects refuses access. -/
structure Backend.Grants {σ : Type} (b : Backend σ) : Prop where
  read : ∀ d f n, (b.read d f n).1 ≠ .accessDenied
  write : ∀ d f n, (b.write d f n).1 ≠ .accessDenied

namespace IoState

variable {σ : Type} {s s' : IoState σ} {cur : Option Nat} {vnode : Nat} {name : Name} {heap : Bool}
  {h : Handle} {access right : Access} {rights : List Access} {p i o : Nat}

def Allowed (r : Outcome (Status × IoState σ)) : Prop :=
  ∃ st s', r = .ok (st, s') ∧ st ≠ .accessDenied

/-- `h` is the handle of a file that was opened with the mask. -/
structure Opened (s : IoState σ) (p : Nat) (h : Handle) (access : Access) (i o : Nat) : Prop where
  resolve : (s.world.handles p).resolve h = some (i, o)
  slot : ((s.world.handles p).slots i).access = obMapGeneric (objectType .file) access
  kind : (s.world.obj o).kind = .file
  held : 0 < (s.world.obj o).pointerCount
  raw : (s.file o).access = access

theorem htInsert_newFile {w w' : World} (hr : (w.newObject .file (some name)).htInsert p w.nobj
    access = (.success, some h, w')) :
    (w'.handles p).resolve h = some (handleIndex h, w.nobj) ∧
      ((w'.handles p).slots (handleIndex h)).access = obMapGeneric (objectType .file) access ∧
      (w'.obj w.nobj).kind = .file ∧ (w'.obj w.nobj).pointerCount = 2 := by
  have hx : ((w.newObject .file (some name)).obj w.nobj) = _ := World.obj_setObj_self _ _ _
  refine ⟨(World.htInsertEx_resolve hr).1, ?_⟩
  rcases World.htInsertEx_cases (w.newObject .file (some name)) p w.nobj access false false with
    ⟨-, he⟩ | ⟨i, -, hi, -, he⟩
  · cases he.symm.trans hr
  · cases he.symm.trans hr
    simp [World.handleIndex_handleValue (World.mem_slots_lt hi), World.openFn, World.incHandleCount,
      World.obReference, hx, HandleTable.set, World.filled]

theorem ntCreateFile_opened
    (hc : s.ntCreateFile cur vnode name access heap = .ok (.success, some h, s')) :
    ∃ p i o, cur = some p ∧ Opened s' p h access i o := by
  obtain ⟨⟨x, w⟩, hx, hc⟩ := Outcome.bind_eq_ok.1 hc
  cases heap with
  | false => cases hx; cases hc
  | true =>
    cases hx
    obtain ⟨w₂, hd, hc⟩ := Outcome.bind_eq_ok.1 hc
    cases cur with
    | none => cases hc
    | some p =>
      obtain ⟨⟨st, out, w₁⟩, hr⟩ : ∃ r, (s.world.newObject .file (some name)).htInsert p
        s.world.nobj access = r := ⟨_, rfl⟩
      simp only [hr] at hd hc
      cases hc
      obtain ⟨hres, hslot, hkind, hcount⟩ := htInsert_newFile hr
      rw [World.obDereference, World.dropReference, if_neg (by omega), if_neg (by omega)] at hd
      cases hd
      exact ⟨p, _, _, rfl, hres, hslot, by simpa [World.decPointerCount] using hkind,
        by simp [World.decPointerCount, hcount], by simp⟩

theorem checked_allows_iff {io : σ → FileObject → Status × Option Nat × σ}
    (hio : ∀ d f, (io d f).1 ≠ .accessDenied) :
    (s.checked o true rights io).1 ≠ .accessDenied ↔
      ∃ r ∈ rights, (s.file o).access &&& r ≠ 0 := by
  simp only [checked, Bool.true_eq_false, if_false]
  split
  · rename_i hall
    simp only [List.all_eq_true, beq_iff_eq] at hall
    refine ⟨fun hne => absurd rfl hne, fun hex => ?_⟩
    obtain ⟨r, hr, hne⟩ := hex
    exact absurd (hall r hr) hne
  · rename_i hall
    refine ⟨fun _ => by simpa [touch] using hall, fun _ => ?_⟩
    have hst := hio s.store (s.file o)
    simp only [throughVnode, touch]
    split <;> simp_all

theorem ntTransfer_allowed_iff (right : Access) (rights : List Access)
    (pipeIo : Nat → σ → Outcome (Status × σ)) {io : σ → FileObject → Status × Option Nat × σ}
    (hio : ∀ d f, (io d f).1 ≠ .accessDenied) (ho : Opened s p h access i o) (off : Nat) :
    Allowed (s.ntTransfer right pipeIo (fun o s => s.checked o true rights io) (some p) h off) ↔
      obMapGeneric (objectType .file) access &&& right = right ∧
        ∃ r ∈ rights, access &&& r ≠ 0 := by
  by_cases hr : obMapGeneric (objectType .file) access &&& right = right
  swap
  · refine ⟨fun ha => ?_, fun hc => absurd hc.1 hr⟩
    obtain ⟨st, s', he, hst⟩ := ha
    have h0 : right ≠ 0 ∧ ((s.world.handles p).slots i).access &&& right ≠ right := by
      rw [ho.slot]
      exact ⟨fun h0 => hr (by simp [h0]), hr⟩
    simp only [ntTransfer, lookup, World.htLookupEx, ho.resolve, if_pos h0] at he
    cases he
    exact absurd rfl hst
  have hn : Names s.world (some p) h right o := ⟨p, i, rfl, ho.resolve, by rw [ho.slot]; exact hr⟩
  rw [ntTransfer, lookup_of_names hn]
  simp only [transferOn, kind_obReference, ho.kind, reduceCtorEq, if_false]
  generalize hs : (if off ≠ currentOffset then _ else _ : IoState σ) = s₂
  have h2 : s₂.world = s.world.obReference o ∧ (s₂.file o).access = access := by
    subst hs
    split <;> simp [setOffset, touch, ho.raw]
  have hw := ((checked_isFileIo true rights io).fileOnly o s₂).world.trans h2.1
  obtain ⟨w, hfin⟩ := finish_eq hw ho.held
  rw [hfin]
  rw [← h2.2] at hr ⊢
  rw [← checked_allows_iff hio]
  refine ⟨fun ha => ?_, fun hc => ⟨_, _, rfl, hc.2⟩⟩
  obtain ⟨st, s', he, hst⟩ := ha
  cases he
  exact ⟨hr, hst⟩

end IoState

theorem and_eq_right_iff {a b : Access} (k : Nat) (hb : b = BitVec.twoPow 32 k) (h0 : b ≠ 0) :
    a &&& b = b ↔ a.getLsbD k = true := by
  subst hb
  rw [BitVec.and_twoPow]
  cases a.getLsbD k with
  | false => simpa using h0.symm
  | true => simp

/-- The rights a file is asked for include those that its generic rights stand for. -/
abbrev SelfContained (access : Access) : Prop :=
  (access &&& genericAll ≠ 0 → (access &&& fileReadData ≠ 0 ∨ access &&& genericRead ≠ 0) ∧
    (access &&& fileWriteData ≠ 0 ∨ access &&& fileAppendData ≠ 0 ∨ access &&& genericWrite ≠ 0)) ∧
  (access &&& fileAppendData ≠ 0 → access &&& fileWriteData ≠ 0 ∨ access &&& genericWrite ≠ 0 ∨
    access &&& genericAll ≠ 0)

theorem masks_agree_iff (access : Access) :
    ((obMapGeneric (objectType .file) access &&& fileReadData = fileReadData ∧
        (∃ r ∈ [fileReadData, genericRead], access &&& r ≠ 0) ↔
          obMapGeneric (objectType .file) access &&& fileReadData ≠ 0) ∧
      (obMapGeneric (objectType .file) access &&& fileWriteData = fileWriteData ∧
        (∃ r ∈ [fileWriteData, fileAppendData, genericWrite], access &&& r ≠ 0) ↔
          obMapGeneric (objectType .file) access &&& fileWriteData ≠ 0 ∨
            obMapGeneric (objectType .file) access &&& fileAppendData ≠ 0)) ↔
      SelfContained access := by
  have hr (a : Access) := generic_ne_zero (a := a) (b := fileReadData) (k := 0) rfl (by omega)
  have hw (a : Access) := generic_ne_zero (a := a) (b := fileWriteData) (k := 1) rfl (by omega)
  have ha (a : Access) := generic_ne_zero (a := a) (b := fileAppendData) (k := 2) rfl (by omega)
  have hgr (a : Access) := generic_ne_zero (a := a) (b := genericRead) (k := 31) rfl (by omega)
  have hgw (a : Access) := generic_ne_zero (a := a) (b := genericWrite) (k := 30) rfl (by omega)
  have hga (a : Access) := generic_ne_zero (a := a) (b := genericAll) (k := 28) rfl (by omega)
  simp only [SelfContained, List.exists_mem_cons_iff, List.not_mem_nil, hr, hw, ha, hgr, hgw, hga,
    and_eq_right_iff (b := fileReadData) 0 rfl (by decide),
    and_eq_right_iff (b := fileWriteData) 1 rfl (by decide), getLsbD_obMapGeneric]
  simp [objectType, fileReadData, fileWriteData, fileExecute, fileAllAccess]
  clear hr hw ha hgr hgw hga
  grind

/-- **The two access checks of a file.** The calls on a file opened by `NtCreateFile` allow
reading and writing as the mapped mask says exactly if the mask is self-contained. -/
theorem access_agrees_iff {σ : Type} {b : Backend σ} {s s' : IoState σ} {cur : Option Nat}
    {vnode : Nat} {name : Name} {access : Access} {heap : Bool} {h : Handle} (hb : b.Grants)
    (hc : s.ntCreateFile cur vnode name access heap = .ok (.success, some h, s')) (n off : Nat) :
    ((IoState.Allowed (s'.ntReadFile b cur h true n off) ↔
        obMapGeneric (objectType .file) access &&& fileReadData ≠ 0) ∧
      (IoState.Allowed (s'.ntWriteFile b cur h true n off) ↔
        obMapGeneric (objectType .file) access &&& fileWriteData ≠ 0 ∨
          obMapGeneric (objectType .file) access &&& fileAppendData ≠ 0)) ↔
      SelfContained access := by
  obtain ⟨p, i, o, rfl, ho⟩ := IoState.ntCreateFile_opened hc
  rw [IoState.ntReadFile, IoState.ntWriteFile]
  have hread := IoState.ntTransfer_allowed_iff fileReadData [fileReadData, genericRead]
    (fun o d => b.pipeRead d o n) (fun d f => hb.read d f n) ho off
  have hwrite := IoState.ntTransfer_allowed_iff fileWriteData
    [fileWriteData, fileAppendData, genericWrite] (fun o d => b.pipeWrite d o n)
    (fun d f => hb.write d f n) ho off
  refine (and_congr (iff_congr hread Iff.rfl) (iff_congr hwrite Iff.rfl)).trans ?_
  exact masks_agree_iff access

theorem emptyBackend_grants : emptyBackend.Grants :=
  ⟨fun _ _ _ => by simp [emptyBackend], fun _ _ _ => by simp [emptyBackend]⟩

/-- A file opened with `GENERIC_READ` alone is read. -/
theorem access_agrees_genericRead : ∃ s h,
    ownProcess.ntCreateFile (some 0) 0 [] genericRead true = .ok (.success, some h, s) ∧
      IoState.Allowed (s.ntReadFile emptyBackend (some 0) h true 1 0) := by
  obtain ⟨⟨st, h, s⟩, hc, h1, h2⟩ : ∃ r, ownProcess.ntCreateFile (some 0) 0 [] genericRead true =
    .ok r ∧ r.1 = .success ∧ r.2.1 = some (handleValue 2 1) := by decide +kernel
  cases h1
  cases h2
  have hagree := (access_agrees_iff emptyBackend_grants hc 1 0).2 (by decide)
  exact ⟨s, _, hc, hagree.1.2 (by decide)⟩

/-- With `GENERIC_ALL` the handle grants every right, and the file object refuses to be read. -/
theorem generic_all_refused : ∃ r, ownProcess.ntCreateFile (some 0) 0 [] genericAll true = .ok r ∧
    r.1 = .success ∧ r.2.1 = some (handleValue 2 1) ∧
      obMapGeneric (objectType .file) genericAll &&& fileReadData ≠ 0 ∧
      ∃ q, r.2.2.ntReadFile emptyBackend (some 0) (handleValue 2 1) true 1 0 = .ok q ∧
        q.1 = .accessDenied := by
  decide +kernel

end Aegis
