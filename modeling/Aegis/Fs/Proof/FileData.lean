import Aegis.Fs.FileData

/-!
# Written bytes read back

`FileInv` relates the buffer of a file to the record of its writes: the size is the largest end, and
a byte that was written has the value of the last write. Growing the buffer keeps the bytes below
the size, and all written bytes are below it.
-/

namespace Aegis

/-! ## The record -/

theorem endOf_append (l : List (Nat × List UInt8)) (off : Nat) (bytes : List UInt8) :
    endOf (l ++ [(off, bytes)]) = max (endOf l) (off + bytes.length) := by
  simp [endOf, List.foldl_append]

theorem lastWritten_append (l : List (Nat × List UInt8)) (off : Nat) (bytes : List UInt8)
    (i : Nat) :
    lastWritten (l ++ [(off, bytes)]) i =
      if off ≤ i then (bytes[i - off]?).or (lastWritten l i) else lastWritten l i := by
  simp [lastWritten, List.foldl_append]

theorem lastWritten_lt {l : List (Nat × List UInt8)} {i : Nat} {b : UInt8}
    (h : lastWritten l i = some b) : i < endOf l := by
  induction l using List.reverseRecOn with
  | nil => cases h
  | append_singleton l x ih =>
    obtain ⟨off, bytes⟩ := x
    rw [lastWritten_append] at h
    rw [endOf_append]
    split_ifs at h with hoff
    · obtain hb | ⟨-, hl⟩ := Option.or_eq_some_iff.1 h
      · obtain ⟨hlt, -⟩ := List.getElem?_eq_some_iff.1 hb
        omega
      · exact lt_max_of_lt_left (ih hl)
    · exact lt_max_of_lt_left (ih h)

/-! ## The buffer -/

namespace FileData

variable {d d' : FileData}

/-- The size is within the buffer, whose length is a multiple of a page. -/
structure Fits (d : FileData) : Prop where
  size_le : d.size ≤ d.cap
  aligned : d.cap % 4096 = 0
  cap_lt : d.cap < 2 ^ 64
  size_lt : d.size < 2 ^ 63

theorem grownCap_spec (h : d.Fits) {need : Nat} (hn : need < 2 ^ 63) :
    need ≤ d.grownCap need ∧ d.grownCap need % 4096 = 0 ∧ d.grownCap need < 2 ^ 64 := by
  have haligned := h.aligned
  have hle : max need (if d.cap ≠ 0 then u64 (d.cap * 2) else 256) ≤ 2 ^ 64 - 4096 := by
    have h2 : u64 (d.cap * 2) ≤ 2 ^ 64 - 4096 := by
      simp only [u64, Word.wrap]
      omega
    split_ifs <;> omega
  refine ⟨?_, pageAlignUp_mod _, pageAlignUp_lt _⟩
  rw [grownCap, pageAlignUp_of_le hle]
  have := le_max_left need (if d.cap ≠ 0 then u64 (d.cap * 2) else 256)
  omega

theorem grow_spec (h : d.Fits) {need : Nat} (hn : need < 2 ^ 63) {heap : Bool} {junk : Nat → UInt8}
    (hg : d.grow need heap junk = some d') :
    d'.size = d.size ∧ need ≤ d'.cap ∧ d'.Fits ∧ ∀ i < d.size, d'.data i = d.data i := by
  obtain ⟨h1, h2, h3⟩ := grownCap_spec h hn
  have hsize := h.size_le
  unfold grow at hg
  split_ifs at hg with hcap hheap
  · cases hg
    exact ⟨rfl, h1, ⟨by show d.size ≤ d.grownCap need; omega, h2, h3, h.size_lt⟩,
      fun i hi => if_pos hi⟩
  · cases hg
    exact ⟨rfl, by omega, h, fun _ _ => rfl⟩

theorem store_size {off : Nat} {bytes : List UInt8} (hn : off + bytes.length < 2 ^ 63) :
    (d.store off bytes).size = max d.size (off + bytes.length) := by
  have hu : u64 (off + bytes.length) = off + bytes.length := u64_of_lt (by omega)
  simp only [store, hu]
  split_ifs <;> omega

theorem load_length (d : FileData) (off n : Nat) : (d.load off n).length = n := by simp [load]

theorem load_getElem (d : FileData) (off n : Nat) {k : Nat} (hk : k < (d.load off n).length) :
    (d.load off n)[k] = d.data (off + k) := by simp [load]

end FileData

/-! ## The files -/

variable {f : Nat} {heap : Bool} {bytes : List UInt8} {junk : Nat → UInt8}

namespace FileState

theorem setOffset_self (s : FileState) (f : Nat) : s.setOffset f (s.file f).offset = s := by
  simp [setOffset]

theorem setOffset_offset (s : FileState) (f off g : Nat) :
    ((s.setOffset f off).file g).offset = if g = f then off else (s.file g).offset := by
  by_cases h : g = f
  · subst h
    simp [setOffset]
  · simp [setOffset, h]

/-- A write is denied, or finds no memory for its buffer, or is stored. -/
theorem write_cases (s : FileState) (f : Nat) (bytes : List UInt8) (heap : Bool)
    (junk : Nat → UInt8) :
    (∃ st, st ≠ .success ∧ s.write f bytes heap junk = (st, s) ∧
      ((s.file f).Denied ∨ s.data.grow (u64 (s.off f + bytes.length)) heap junk = none)) ∨
    ¬ (s.file f).Denied ∧ ∃ d, s.data.grow (u64 (s.off f + bytes.length)) heap junk = some d ∧
      s.write f bytes heap junk = (.success,
        { s.setOffset f (u64 (s.off f + bytes.length)) with data := d.store (s.off f) bytes }) := by
  unfold write FileData.vfsWrite
  by_cases hd : (s.file f).Denied
  · exact .inl ⟨.accessDenied, by decide, by simp [hd, setOffset_self], .inl hd⟩
  · rw [show s.data.writeOff (s.file f) = s.off f from rfl]
    cases hg : s.data.grow (u64 (s.off f + bytes.length)) heap junk with
    | none => exact .inl ⟨.noMemory, by decide, by simp [hd, hg, setOffset_self], .inr rfl⟩
    | some d => exact .inr ⟨hd, d, rfl, by simp [hd, hg]⟩

end FileState

namespace FileSys

variable {s s' : FileSys}

/-- The buffer holds the record of the writes, and the offsets are those that the calls can set. -/
structure FileInv (s : FileSys) : Prop where
  fits : s.data.Fits
  size : s.data.size = endOf s.written
  bytes : ∀ i b, lastWritten s.written i = some b → s.data.data i = b
  offset : ∀ f, (s.file f).offset < 2 ^ 63

theorem FileInv.setOffset (h : s.FileInv) (f : Nat) {off : Nat} (ho : off < 2 ^ 63) :
    FileInv { s with toFileState := s.setOffset f off } where
  fits := h.fits
  size := h.size
  bytes := h.bytes
  offset g := by
    rw [FileState.setOffset_offset]
    split_ifs
    · exact ho
    · exact h.offset g

theorem readsBack (h : s.FileInv) (f n : Nat) : s.ReadsBack f n where
  denied h1 h2 := by
    simp only [read, FileData.vfsRead, h1, h2, and_self, if_true, FileState.setOffset_self]
  eof hacc hle := by
    have hge : (s.file f).offset ≥ s.data.size := h.size ▸ hle
    simp only [read, FileData.vfsRead, if_neg hacc, if_pos hge, FileState.setOffset_self]
  ok hacc hlt := by
    have hge : ¬ (s.file f).offset ≥ s.data.size := by
      rw [h.size]
      omega
    have hsize := h.fits.size_lt
    have hu : u64 ((s.file f).offset + min n (s.data.size - (s.file f).offset)) =
        (s.file f).offset + min n (s.data.size - (s.file f).offset) := u64_of_lt (by omega)
    refine ⟨s.data.load (s.file f).offset (min n (s.data.size - (s.file f).offset)), ?_, ?_, ?_⟩
    · rw [FileData.load_length, h.size]
    · simp only [read, FileData.vfsRead, if_neg hacc, if_neg hge, FileData.load_length, hu]
    · intro k hk b hb
      rw [FileData.load_getElem]
      exact h.bytes _ b hb

theorem write_cases (hok : FileOk s (.write f bytes heap junk)) :
    ((s.write f bytes heap junk).1 ≠ .success ∧ (s.write f bytes heap junk).2 = s) ∨
      ∃ d, s.data.grow ((s.file f).offset + bytes.length) heap junk = some d ∧
        s.write f bytes heap junk = (.success,
          { s with
            toFileState := { s.setOffset f ((s.file f).offset + bytes.length) with
              data := d.store (s.file f).offset bytes }
            written := s.written ++ [((s.file f).offset, bytes)] }) := by
  obtain ⟨happ, hlt⟩ := hok
  have hoff : s.off f = (s.file f).offset := if_neg (by simp [happ])
  have hu : u64 ((s.file f).offset + bytes.length) = (s.file f).offset + bytes.length :=
    u64_of_lt (by omega)
  unfold write
  obtain ⟨st, hst, he, -⟩ | ⟨-, d, hg, he⟩ := s.toFileState.write_cases f bytes heap junk
  · rw [he]
    exact .inl ⟨hst, by simp only [if_neg hst]⟩
  · rw [hoff, hu] at hg he
    rw [he]
    exact .inr ⟨d, hg, rfl⟩

theorem writes (hok : FileOk s (.write f bytes heap junk)) : s.Writes f bytes heap junk := by
  obtain ⟨hne, he⟩ | ⟨d, -, he⟩ := write_cases hok
  · exact ⟨fun _ => he, fun hs => absurd hs hne⟩
  · constructor
    · intro hne
      rw [he] at hne
      exact absurd rfl hne
    · intro _
      rw [he]
      exact ⟨rfl, rfl⟩

theorem write_inv (h : s.FileInv) (hok : FileOk s (.write f bytes heap junk)) :
    (s.write f bytes heap junk).2.FileInv := by
  obtain ⟨-, he⟩ | ⟨d, hg, he⟩ := write_cases hok
  · rw [he]
    exact h
  obtain ⟨happ, hlt⟩ := hok
  obtain ⟨hsize, hneed, hfits, hkeep⟩ := FileData.grow_spec h.fits hlt hg
  have hstore := FileData.store_size (d := d) hlt
  rw [he]
  exact {
    fits := by
      have h1 := hfits.size_le
      have h2 := hfits.size_lt
      exact ⟨by rw [hstore]; exact max_le h1 hneed, hfits.aligned, hfits.cap_lt,
        by rw [hstore]; exact max_lt h2 hlt⟩
    size := by
      rw [endOf_append, ← h.size, ← hsize]
      exact hstore
    bytes := fun i b hb => by
      rw [lastWritten_append] at hb
      show (if (s.file f).offset ≤ i then _ else _) = b
      -- a byte of this write, or an older one below the old size
      have hold : lastWritten s.written i = some b → d.data i = b := by
        intro hl
        rw [hkeep i (h.size ▸ lastWritten_lt hl)]
        exact h.bytes i b hl
      split_ifs at hb ⊢ with hoff
      · obtain hb | ⟨hb, hl⟩ := Option.or_eq_some_iff.1 hb
        · rw [hb]
          rfl
        · rw [hb]
          exact hold hl
      · exact hold hb
    offset := (h.setOffset f hlt).offset }

theorem fileStep_inv {a : FileOp} (h : s.FileInv) (hok : FileOk s a) :
    ∃ s', fileStep s a = some s' ∧ s'.FileInv := by
  cases a with
  | read f n =>
    refine ⟨_, rfl, ?_⟩
    have hr := readsBack h f n
    by_cases hacc : (s.file f).access &&& fileReadData = 0 ∧ (s.file f).access &&& genericRead = 0
    · rw [hr.denied hacc.1 hacc.2]
      exact h
    by_cases hlt : (s.file f).offset < endOf s.written
    · obtain ⟨bytes, hlen, he, -⟩ := hr.ok hacc hlt
      rw [he]
      have hend := h.fits.size_lt
      rw [h.size] at hend
      exact h.setOffset f (by omega)
    · rw [hr.eof hacc (by omega)]
      exact h
  | write f bytes heap junk => exact ⟨_, rfl, write_inv h hok⟩
  | seek f off => exact ⟨_, rfl, h.setOffset f hok⟩

theorem init_inv (access : Nat → Access) : (init access).FileInv where
  fits := ⟨le_rfl, rfl, Nat.two_pow_pos 64, Nat.two_pow_pos 63⟩
  size := rfl
  bytes i b h := by cases h
  offset _ := Nat.two_pow_pos 63

end FileSys

/-- After every run, the size is the largest end of a write, reads give back what was written last,
and writes do what they say or nothing. -/
theorem file_reads_back (access : Nat → Access) {ops : List FileOp}
    (hl : Run.Legal fileStep FileOk (.init access) ops) :
    ∃ s, Run.run fileStep (.init access) ops = some s ∧ s.data.size = endOf s.written ∧
      (∀ f n, FileOk s (.read f n) → s.ReadsBack f n) ∧
      ∀ f bytes heap junk, FileOk s (.write f bytes heap junk) → s.Writes f bytes heap junk := by
  obtain ⟨s, hr, hi⟩ := Run.run_inv (fun _ _ => FileSys.fileStep_inv) (FileSys.init_inv access) hl
  exact ⟨s, hr, hi.size, fun f n _ => FileSys.readsBack hi f n, fun _ _ _ _ => FileSys.writes⟩

/-- Two File objects: a write past the first page grows the buffer, and the earlier bytes stay. -/
theorem file_reads_back_grown : ∃ s, Run.run fileStep (.init fun _ => 3#32)
    [.write 0 [7, 8] true fun _ => 0, .seek 1 5000, .write 1 [9] true fun _ => 1, .seek 0 0] =
      some s ∧ endOf s.written = 5001 ∧ s.ReadsBack 0 2 := by
  have hl : Run.Legal fileStep FileOk (.init fun _ => 3#32)
      [.write 0 [7, 8] true fun _ => 0, .seek 1 5000, .write 1 [9] true fun _ => 1,
        .seek 0 0] := by decide +kernel
  obtain ⟨s, hs, -, hread, -⟩ := file_reads_back _ hl
  obtain ⟨s', hs', h1, h2⟩ : ∃ s, Run.run fileStep (.init fun _ => 3#32)
    [.write 0 [7, 8] true fun _ => 0, .seek 1 5000, .write 1 [9] true fun _ => 1,
      .seek 0 0] = some s ∧ endOf s.written = 5001 ∧ (s.file 0).offset = 0 := by decide +kernel
  cases hs.symm.trans hs'
  exact ⟨s, hs, h1, hread 0 2 (by show _ + 2 < _; rw [h2]; decide)⟩

end Aegis
