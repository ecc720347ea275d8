import Aegis.Ke.FileCall
import Aegis.Ob.Proof.Cases

/-!
# The file calls take any object for a file

The lookups of the three calls ask for a right and for no kind, and a right is a bit that every
type of object gives its own meaning. `file_calls_confusion`: the calls keep to objects of their
kind exactly for the handles that carry the right to a file (or, for a transfer, a pipe).
-/

namespace Aegis

namespace IoState

section
variable {σ : Type} {s s' s₁ s₂ s₃ : IoState σ} {cur : Option Nat} {h : Handle} {right : Access}
  {o off : Nat} {buf : Bool}
variable {w : World} {fileIo : Nat → IoState σ → Status × IoState σ}

/-! ## Lookups -/

theorem lookup_of_names (hn : Names s.world cur h right o) :
    s.lookup cur h right none = (.success, some o, { s with world := s.world.obReference o }) := by
  obtain ⟨p, i, rfl, hr, ha⟩ := hn
  simp [lookup, World.htLookupEx, hr, ha]

theorem lookup_file_of_names (hn : Names s.world cur h 0 o)
    (hk : (s.world.obj o).kind = .file) : s.lookup cur h 0 (some .file) =
      (.success, some o, { s with world := s.world.obReference o }) := by
  obtain ⟨p, i, rfl, hr, -⟩ := hn
  simp [lookup, World.htLookupEx, hr, hk]

theorem lookup_of_not (s : IoState σ) (cur : Option Nat) (h : Handle) (right : Access)
    (expect : Option ObjKind)
    (hn : ∀ o, Names s.world cur h right o → ∃ k, expect = some k ∧ (s.world.obj o).kind ≠ k) :
    ∃ st, ntSuccess st = false ∧ s.lookup cur h right expect = (st, none, s) := by
  cases cur with
  | none => exact ⟨_, by rfl, rfl⟩
  | some p =>
    rcases World.htLookupEx_cases s.world p h right expect with
      ⟨st, hst, he⟩ | ⟨i, o, hr, ha, hk, -⟩
    · exact ⟨st, (ntSuccess_eq_false st).2 hst, by simp [lookup, he]⟩
    · obtain ⟨k, rfl, hne⟩ := hn o ⟨p, i, rfl, hr, by
        by_cases h0 : right = 0
        · simp [h0]
        · exact ha h0⟩
      exact absurd (hk k rfl) hne

theorem names_mono (hn : Names s.world cur h right o) : Names s.world cur h 0 o := by
  obtain ⟨p, i, hc, hr, -⟩ := hn
  exact ⟨p, i, hc, hr, by simp⟩

theorem names_unique {right' : Access} {o' : Nat} (hn : Names s.world cur h right o)
    (hn' : Names s.world cur h right' o') : o' = o := by
  obtain ⟨p, i, rfl, hr, -⟩ := hn
  obtain ⟨p', i', hp, hr', -⟩ := hn'
  cases hp
  rw [hr] at hr'
  cases hr'
  rfl

/-! ## The file functions -/

/-- The accesses from `s` to `s'` are to `o`, as a file. -/
structure FileOnly (s : IoState σ) (o : Nat) (s' : IoState σ) : Prop where
  world : s'.world = s.world
  touched : ∃ l, s'.touched = l ++ s.touched ∧ ∀ t ∈ l, ∃ f, t = .file o f

theorem FileOnly.refl (s : IoState σ) (o : Nat) : FileOnly s o s := ⟨rfl, [], rfl, by simp⟩

theorem FileOnly.trans (h : FileOnly s₁ o s₂) (h' : FileOnly s₂ o s₃) : FileOnly s₁ o s₃ := by
  obtain ⟨l, hl, ht⟩ := h.touched
  obtain ⟨l', hl', ht'⟩ := h'.touched
  refine ⟨h'.world.trans h.world, l' ++ l, by rw [hl', hl, List.append_assoc], fun t hm => ?_⟩
  rcases List.mem_append.1 hm with hm | hm
  · exact ht' t hm
  · exact ht t hm

theorem touch_fileOnly (s : IoState σ) (o : Nat) (f : FileField) :
    FileOnly s o (s.touch (.file o f)) :=
  ⟨rfl, [.file o f], rfl, fun _ ht => ⟨f, List.mem_singleton.1 ht⟩⟩

theorem setOffset_fileOnly (s : IoState σ) (o off : Nat) : FileOnly s o (s.setOffset o off) :=
  ⟨rfl, (touch_fileOnly s o .offset).touched⟩

theorem throughVnode_fileOnly (s : IoState σ) (o : Nat)
    (io : σ → FileObject → Status × Option Nat × σ) :
    FileOnly (s.touch (.file o .vnode)) o (s.throughVnode o io).2 := by
  unfold throughVnode
  simp only
  split
  · exact ⟨rfl, (FileOnly.refl _ o).touched⟩
  · rename_i off d _
    exact ⟨rfl, (setOffset_fileOnly _ o off).touched⟩

/-- `s` was accessed as a file at least once on the way to `s'`. -/
def Accessed (s : IoState σ) (o : Nat) (s' : IoState σ) : Prop :=
  ∃ f, FileOnly (s.touch (.file o f)) o s'

/-- What a file function does: nothing without a buffer, and otherwise it accesses the object. -/
structure IsFileIo (buf : Bool) (fileIo : Nat → IoState σ → Status × IoState σ) : Prop where
  null : buf = false → ∀ o s, fileIo o s = (.invalidParameter, s)
  accessed : buf = true → ∀ o s, Accessed s o (fileIo o s).2

theorem checked_isFileIo (buf : Bool) (rights : List Access)
    (io : σ → FileObject → Status × Option Nat × σ) :
    IsFileIo buf fun o s => checked s o buf rights io := by
  refine ⟨fun hb o s => by simp [checked, hb], fun hb o s => ⟨.access, ?_⟩⟩
  simp only [checked, hb, reduceCtorEq, if_false]
  split
  · exact FileOnly.refl _ o
  · exact (touch_fileOnly _ o .vnode).trans (throughVnode_fileOnly _ o io)

theorem vfsRead_isFileIo (b : Backend σ) (n : Nat) :
    IsFileIo buf fun o s => vfsRead b s o buf n := checked_isFileIo buf _ _

theorem vfsWrite_isFileIo (b : Backend σ) (n : Nat) :
    IsFileIo buf fun o s => vfsWrite b s o buf n := checked_isFileIo buf _ _

theorem vfsReaddir_isFileIo (b : Backend σ) (buf : Bool) (n : Nat) (restart : Bool) :
    IsFileIo buf fun o s => vfsReaddir b s o buf n restart :=
  ⟨fun hb o s => by simp [vfsReaddir, hb], fun hb o s => ⟨.vnode, by
    simpa [vfsReaddir, hb] using throughVnode_fileOnly s o _⟩⟩

theorem IsFileIo.fileOnly (hio : IsFileIo buf fileIo) (o : Nat) (s : IoState σ) :
    FileOnly s o (fileIo o s).2 := by
  cases hb : buf with
  | false => rw [hio.null hb]; exact FileOnly.refl s o
  | true =>
    obtain ⟨f, hf⟩ := hio.accessed hb o s
    exact (touch_fileOnly s o f).trans hf

/-- The reference of the lookup is not the last one of an object that a handle holds. -/
theorem finish_eq {r : Status × IoState σ} (hw : r.2.world = s.world.obReference o)
    (hp : 0 < (s.world.obj o).pointerCount) :
    ∃ w, finish o r = .ok (r.1, { r.2 with world := w }) := by
  refine ⟨(s.world.obReference o).decPointerCount o, ?_⟩
  have : (s.world.obReference o).obDereference o =
      .ok ((s.world.obReference o).decPointerCount o) := by
    have h2 : ((s.world.obReference o).obj o).pointerCount = (s.world.obj o).pointerCount + 1 := by
      simp [World.obReference]
    simp only [World.obDereference, World.dropReference, h2]
    rw [if_neg (by omega), if_neg (by omega)]
  simp [finish, hw, this]

/-! ## The calls -/

theorem Accessed.not_typed (ha : Accessed s o s') (hk : (w.obj o).kind ≠ .file) :
    ¬ ∃ l, s'.touched = l ++ s.touched ∧ ∀ t ∈ l, Typed w t := by
  rintro ⟨l, hl, ht⟩
  obtain ⟨f, -, l', hl', -⟩ := ha
  have he : l = l' ++ [.file o f] := by
    have hsplit : l' ++ (s.touch (.file o f)).touched = l' ++ [.file o f] ++ s.touched := by
      simp [touch]
    exact List.append_cancel_right (hl.symm.trans (hl'.trans hsplit))
  exact hk (ht (.file o f) (by rw [he]; simp))

theorem FileOnly.typed (hf : FileOnly s o s') (hk : (w.obj o).kind = .file) :
    ∃ l, s'.touched = l ++ s.touched ∧ ∀ t ∈ l, Typed w t := by
  obtain ⟨l, hl, ht⟩ := hf.touched
  refine ⟨l, hl, fun t hm => ?_⟩
  obtain ⟨f, rfl⟩ := ht t hm
  exact hk

theorem noConfusion_of_refused {st : Status} (hst : ntSuccess st = false) :
    NoConfusion s cur h (.ok (st, { s with world := w })) := by
  refine ⟨fun _ _ hr => ?_, fun _ _ _ _ => ⟨st, _, rfl, hst, rfl, rfl⟩⟩
  cases hr
  exact ⟨[], rfl, by simp⟩

theorem kind_obReference : ((s.world.obReference o).obj o).kind = (s.world.obj o).kind :=
  (World.obReference_kept o).kind o

/-- A transfer keeps to its kinds exactly for the handles with the right to a file or a pipe, and
where it has neither an offset to set nor a buffer. -/
theorem ntTransfer_noConfusion_iff {pipeIo : Nat → σ → Outcome (Status × σ)}
    (hio : IsFileIo buf fileIo)
    (hw : ∀ o, Names s.world cur h 0 o → 0 < (s.world.obj o).pointerCount) :
    NoConfusion s cur h (s.ntTransfer right pipeIo fileIo cur h off) ↔
      (off = currentOffset ∧ buf = false) ∨ ∀ o, Names s.world cur h right o →
          (s.world.obj o).kind = .file ∨ (s.world.obj o).kind = .pipe := by
  by_cases hex : ∃ o, Names s.world cur h right o
  swap
  · obtain ⟨st, hst, he⟩ := lookup_of_not s cur h right none fun o hn => absurd ⟨o, hn⟩ hex
    rw [ntTransfer, he]
    exact ⟨fun _ => .inr fun o hn => absurd ⟨o, hn⟩ hex, fun _ => noConfusion_of_refused hst⟩
  obtain ⟨o, hn⟩ := hex
  rw [ntTransfer, lookup_of_names hn]
  simp only [transferOn, kind_obReference]
  by_cases hpipe : (s.world.obj o).kind = .pipe
  · rw [if_pos hpipe]
    refine ⟨fun _ => .inr fun o' hn' => .inr (names_unique hn hn' ▸ hpipe), fun _ => ⟨?_, ?_⟩⟩
    · intro st s' hr
      obtain ⟨⟨st1, s₁⟩, h1, h2⟩ := Outcome.bind_eq_ok.1 hr
      obtain ⟨⟨st2, d⟩, -, h3⟩ := Outcome.bind_eq_ok.1 h1
      obtain ⟨w, -, h4⟩ := Outcome.bind_eq_ok.1 h2
      cases h3
      cases h4
      exact ⟨[.pipe o], rfl, fun t ht => by rw [List.mem_singleton.1 ht]; exact hpipe⟩
    · exact fun o' hn' _ hne => absurd (names_unique hn hn' ▸ hpipe) hne
  rw [if_neg hpipe]
  -- the object is taken for a file
  let s₁ : IoState σ := { s with world := s.world.obReference o }
  let s₂ : IoState σ := if off ≠ currentOffset then s₁.setOffset o off else s₁
  have hs2 : FileOnly s₁ o s₂ := by
    by_cases hoff : off = currentOffset
    · simp only [s₂, hoff, ne_eq, not_true_eq_false, if_false]
      exact FileOnly.refl s₁ o
    · simp only [s₂, hoff, ne_eq, not_false_eq_true, if_true]
      exact setOffset_fileOnly s₁ o off
  have hf := hs2.trans (hio.fileOnly o s₂)
  obtain ⟨w, hfin⟩ := finish_eq (s := s) (r := fileIo o s₂) hf.world (hw o (names_mono hn))
  rw [show finish o (fileIo o s₂) = _ from hfin]
  by_cases hfile : (s.world.obj o).kind = .file
  · refine ⟨fun _ => .inr fun o' hn' => .inl (names_unique hn hn' ▸ hfile), fun _ => ⟨?_, ?_⟩⟩
    · intro st s' hr
      cases hr
      exact hf.typed hfile
    · exact fun o' hn' hne => absurd (names_unique hn hn' ▸ hfile) hne
  · by_cases hnull : off = currentOffset ∧ buf = false
    · refine ⟨fun _ => .inl hnull, fun _ => ?_⟩
      have : s₂ = s₁ := by simp [s₂, hnull.1]
      rw [hio.null hnull.2, this]
      exact noConfusion_of_refused rfl
    · have hacc : Accessed s₁ o (fileIo o s₂).2 := by
        by_cases hoff : off = currentOffset
        · have : s₂ = s₁ := by simp [s₂, hoff]
          rw [this]
          exact hio.accessed (by simpa using fun hb => hnull ⟨hoff, hb⟩) o s₁
        · have : s₂ = s₁.setOffset o off := by simp [s₂, hoff]
          refine ⟨.offset, ?_⟩
          rw [this]
          exact ⟨(hio.fileOnly o _).world, (hio.fileOnly o _).touched⟩
      constructor
      · intro hc
        exact absurd (hc.typed _ _ rfl) (hacc.not_typed hfile)
      · rintro (hc | hc)
        · exact absurd hc hnull
        · exact absurd (hc o hn) (not_or.2 ⟨hfile, hpipe⟩)

/-- `NtQueryDirectoryFile` checks the kind only where the right is missing. -/
theorem ntQueryDirectoryFile_noConfusion_iff (b : Backend σ) (n : Nat) (restart : Bool)
    (hw : ∀ o, Names s.world cur h 0 o → 0 < (s.world.obj o).pointerCount) :
    NoConfusion s cur h (s.ntQueryDirectoryFile b cur h buf n restart) ↔
      buf = false ∨ ∀ o, Names s.world cur h (fileReadData ||| directoryQuery) o →
        (s.world.obj o).kind = .file := by
  have hio := vfsReaddir_isFileIo b buf n restart
  -- the call on a file, whichever lookup has found it
  have hfile : ∀ o, Names s.world cur h 0 o → (s.world.obj o).kind = .file →
      s.queryLookup cur h = (.success, some o, { s with world := s.world.obReference o }) →
      NoConfusion s cur h (s.ntQueryDirectoryFile b cur h buf n restart) := by
    intro o hn hk hq
    have hf := hio.fileOnly o { s with world := s.world.obReference o }
    obtain ⟨w, hfin⟩ := finish_eq (s := s) hf.world (hw o hn)
    rw [ntQueryDirectoryFile, hq]
    simp only [hfin]
    refine ⟨fun st s' hr => ?_, fun o' hn' hne => absurd (names_unique hn hn' ▸ hk) hne⟩
    cases hr
    exact hf.typed hk
  by_cases hex : ∃ o, Names s.world cur h (fileReadData ||| directoryQuery) o
  · obtain ⟨o, hn⟩ := hex
    have hq : s.queryLookup cur h =
        (.success, some o, { s with world := s.world.obReference o }) := by
      rw [queryLookup, lookup_of_names hn]
    by_cases hk : (s.world.obj o).kind = .file
    · exact ⟨fun _ => .inr fun o' hn' => names_unique hn hn' ▸ hk,
        fun _ => hfile o (names_mono hn) hk hq⟩
    · have hf := hio.fileOnly o { s with world := s.world.obReference o }
      obtain ⟨w, hfin⟩ := finish_eq (s := s) hf.world (hw o (names_mono hn))
      rw [ntQueryDirectoryFile, hq]
      simp only [hfin]
      cases hb : buf with
      | false =>
        refine ⟨fun _ => .inl rfl, fun _ => ?_⟩
        subst hb
        rw [hio.null rfl]
        exact noConfusion_of_refused rfl
      | true =>
        subst hb
        constructor
        · intro hc
          exact absurd (hc.typed _ _ rfl) ((hio.accessed rfl o _).not_typed hk)
        · rintro (hc | hc)
          · cases hc
          · exact absurd (hc o hn) hk
  · refine ⟨fun _ => .inr fun o hn => absurd ⟨o, hn⟩ hex, fun _ => ?_⟩
    obtain ⟨st, -, he⟩ := lookup_of_not s cur h (fileReadData ||| directoryQuery) none
      fun o hn => absurd ⟨o, hn⟩ hex
    by_cases hex0 : ∃ o, Names s.world cur h 0 o ∧ (s.world.obj o).kind = .file
    · obtain ⟨o, hn, hk⟩ := hex0
      exact hfile o hn hk (by rw [queryLookup, he]; exact lookup_file_of_names hn hk)
    · obtain ⟨st2, hst2, he2⟩ := lookup_of_not s cur h 0 (some .file)
        fun o hn => ⟨.file, rfl, fun hk => hex0 ⟨o, hn, hk⟩⟩
      rw [ntQueryDirectoryFile, queryLookup, he]
      simp only [he2]
      exact noConfusion_of_refused hst2

end

end IoState

/-- **The file calls and the kinds of objects.** A handle that names an object which is held keeps
the calls to objects of their kind exactly if it does not carry the right of the call to an object
of another kind; a call without a buffer (and, for a transfer, without an offset) accesses
nothing. -/
theorem file_calls_confusion {σ : Type} (b : Backend σ) (s : IoState σ) (cur : Option Nat)
    (h : Handle) (buf : Bool) (n off : Nat) (restart : Bool)
    (hw : ∀ o, Names s.world cur h 0 o → 0 < (s.world.obj o).pointerCount) :
    (NoConfusion s cur h (s.ntReadFile b cur h buf n off) ↔
      (off = IoState.currentOffset ∧ buf = false) ∨ ∀ o, Names s.world cur h fileReadData o →
        (s.world.obj o).kind = .file ∨ (s.world.obj o).kind = .pipe) ∧
    (NoConfusion s cur h (s.ntWriteFile b cur h buf n off) ↔
      (off = IoState.currentOffset ∧ buf = false) ∨ ∀ o, Names s.world cur h fileWriteData o →
        (s.world.obj o).kind = .file ∨ (s.world.obj o).kind = .pipe) ∧
    (NoConfusion s cur h (s.ntQueryDirectoryFile b cur h buf n restart) ↔
      buf = false ∨ ∀ o, Names s.world cur h (fileReadData ||| directoryQuery) o →
        (s.world.obj o).kind = .file) :=
  ⟨IoState.ntTransfer_noConfusion_iff (IoState.vfsRead_isFileIo b n) hw,
    IoState.ntTransfer_noConfusion_iff (IoState.vfsWrite_isFileIo b n) hw,
    IoState.ntQueryDirectoryFile_noConfusion_iff b n restart hw⟩

/-- A backend without vnodes, and a process with a handle to itself that grants
`PROCESS_TERMINATE`. -/
def emptyBackend : Backend Unit where
  read _ _ _ := (.endOfFile, none, ())
  write _ _ _ := (.success, none, ())
  readdir _ _ _ _ := (.endOfFile, none, ())
  pipeRead _ _ _ := .ok (.endOfFile, ())
  pipeWrite _ _ _ := .ok (.success, ())

def ownProcess : IoState Unit where
  world := ((World.blank.newObject .process none).htInsertEx 0 0 processTerminate false false).2.2
  file _ := ⟨0, 0, 0⟩
  store := ()
  touched := []

theorem ownProcess_names {right : Access} {o : Nat}
    (hn : Names ownProcess.world (some 0) (handleValue 1 1) right o) : o = 0 := by
  obtain ⟨p, i, hp, hr, -⟩ := hn
  cases hp
  have : (ownProcess.world.handles 0).resolve (handleValue 1 1) = some (1, 0) := by decide +kernel
  rw [this] at hr
  cases hr
  rfl

/-- `PROCESS_TERMINATE` and `FILE_READ_DATA` are one bit: `NtReadFile` sets `offset` of the
process as if it were a file. -/
theorem process_read_as_file :
    ¬ NoConfusion ownProcess (some 0) (handleValue 1 1)
      (ownProcess.ntReadFile emptyBackend (some 0) (handleValue 1 1) true 16 0) := by
  intro hc
  obtain ⟨⟨st, s'⟩, hr, hs'⟩ : ∃ r, ownProcess.ntReadFile emptyBackend (some 0) (handleValue 1 1)
      true 16 0 = .ok r ∧ r.2.touched = [.file 0 .access, .file 0 .offset] := by decide +kernel
  obtain ⟨l, hl, htyped⟩ := hc.typed st s' hr
  have hmem : Touch.file 0 .offset ∈ l := by
    rw [show l = s'.touched by rw [hl]; simp [ownProcess], hs']
    simp
  have hk : (ownProcess.world.obj 0).kind = .file := htyped _ hmem
  exact absurd hk (by decide +kernel)

/-- The handle gives no right to write, and `NtWriteFile` refuses it. -/
theorem file_calls_confusion_ownProcess :
    NoConfusion ownProcess (some 0) (handleValue 1 1)
      (ownProcess.ntWriteFile emptyBackend (some 0) (handleValue 1 1) true 16 0) := by
  refine (file_calls_confusion emptyBackend ownProcess (some 0) (handleValue 1 1) true 16 0 false
    fun o hn => ?_).2.1.2 (.inr fun o hn => ?_)
  · rw [ownProcess_names hn]
    decide +kernel
  · obtain ⟨p, i, hp, hr, ha⟩ := hn
    cases hp
    have : (ownProcess.world.handles 0).resolve (handleValue 1 1) = some (1, 0) := by
      decide +kernel
    rw [this] at hr
    cases hr
    exact absurd ha (by decide +kernel)

end Aegis
