import Aegis.Ob.Proof.PipeReady

/-!
# No reader sleeps on data

`WakeInv` says that at most one thread waits on each dispatcher, and none on one that is to be
signalled. A round wakes one thread: with one thread on the list that is all of them.
-/

namespace Aegis

open RingBuffer Function

namespace PipeThreads

variable {s : PipeThreads}
variable {done t : Nat} {x : PipeThread}

/-- The wait lists hold the blocked threads. -/
structure Listed (s : PipeThreads) : Prop where
  read : ∀ t n done, s.thread t = .blocked (.read n) done → t ∈ s.readWaits
  write : ∀ t data done, s.thread t = .blocked (.write data) done → t ∈ s.writeWaits

/-- Nobody waits for what is there. -/
structure WakeInv (s : PipeThreads) : Prop where
  listed : s.Listed
  ring : Ok pipeCap s.pipe.ring
  nonneg : 0 ≤ s.pipe.canRead
  /-- The signals are set when there is something to do. -/
  data : 0 < s.pipe.ring.used → 0 < s.pipe.canRead
  room : s.pipe.ring.used < pipeCap → 0 < s.pipe.canWrite
  readers : s.readWaits.length ≤ 1
  writers : s.writeWaits.length ≤ 1
  noReader : 0 < s.pipe.ring.used → s.readWaits = []
  noWriter : s.pipe.ring.used < pipeCap → s.writeWaits = []

theorem WakeInv.noSleeper (h : s.WakeInv) : s.NoSleeper where
  data hu t n done hb := by
    have hm := h.listed.read t n done hb
    rw [h.noReader hu] at hm
    cases hm
  room hu t data done hb := by
    have hm := h.listed.write t data done hb
    rw [h.noWriter hu] at hm
    cases hm

theorem wakeInv_init : init.WakeInv where
  listed := ⟨by simp [init], by simp [init]⟩
  ring := ⟨by decide, by decide, by decide⟩
  nonneg := by decide
  data := by decide
  room := by decide
  readers := by decide
  writers := by decide
  noReader _ := rfl
  noWriter _ := rfl

/-! ## Threads on and off the lists -/

theorem resume_ne_blocked (x : PipeThread) (request : Request) (done : Nat) :
    x.resume ≠ .blocked request done := by
  cases x <;> simp [PipeThread.resume]

theorem Listed.set (h : s.Listed) (hx : ∀ request done, x ≠ .blocked request done) :
    (s.set t x).Listed where
  read u n done hb := by
    by_cases hu : u = t
    · subst hu
      exact absurd ((update_self ..).symm.trans hb) (hx _ _)
    · exact h.read u n done ((update_of_ne hu ..).symm.trans hb)
  write u data done hb := by
    by_cases hu : u = t
    · subst hu
      exact absurd ((update_self ..).symm.trans hb) (hx _ _)
    · exact h.write u data done ((update_of_ne hu ..).symm.trans hb)

theorem Listed.setPipe (h : s.Listed) (p : PipeObject) : (s.setPipe p).Listed :=
  ⟨h.read, h.write⟩

theorem wakeReader_spec (h : s.Listed) (hl : s.readWaits.length ≤ 1) :
    s.wakeReader.Listed ∧ s.wakeReader.pipe = s.pipe ∧ s.wakeReader.readWaits = [] ∧
      s.wakeReader.writeWaits = s.writeWaits := by
  unfold wakeReader
  split
  · rename_i he
    exact ⟨h, rfl, he, rfl⟩
  · rename_i t rest he
    rw [he, List.length_cons] at hl
    have hset := h.set (t := t) (resume_ne_blocked (s.thread t))
    have hrest : rest = [] := List.length_eq_zero_iff.1 (by omega)
    refine ⟨⟨fun u n done hb => ?_, hset.write⟩, rfl, hrest, rfl⟩
    have hm : u ∈ s.readWaits := hset.read u n done hb
    rw [he] at hm
    obtain rfl | hm := List.mem_cons.1 hm
    · exact absurd ((update_self ..).symm.trans hb) (resume_ne_blocked _ _ _)
    · exact hm

theorem wakeWriter_spec (h : s.Listed) (hl : s.writeWaits.length ≤ 1) :
    s.wakeWriter.Listed ∧ s.wakeWriter.pipe = s.pipe ∧ s.wakeWriter.writeWaits = [] ∧
      s.wakeWriter.readWaits = s.readWaits := by
  unfold wakeWriter
  split
  · rename_i he
    exact ⟨h, rfl, he, rfl⟩
  · rename_i t rest he
    rw [he, List.length_cons] at hl
    have hset := h.set (t := t) (resume_ne_blocked (s.thread t))
    have hrest : rest = [] := List.length_eq_zero_iff.1 (by omega)
    refine ⟨⟨hset.read, fun u data done hb => ?_⟩, rfl, hrest, rfl⟩
    have hm : u ∈ s.writeWaits := hset.write u data done hb
    rw [he] at hm
    obtain rfl | hm := List.mem_cons.1 hm
    · exact absurd ((update_self ..).symm.trans hb) (resume_ne_blocked _ _ _)
    · exact hm

theorem wakeReaders_listed (h : s.Listed) : s.wakeReaders.Listed where
  read u n done hb := by
    have hb' : (if u ∈ s.readWaits then (s.thread u).resume else s.thread u) =
      .blocked (.read n) done := hb
    split_ifs at hb' with hu
    · exact absurd hb' (resume_ne_blocked _ _ _)
    · exact absurd (h.read u n done hb') hu
  write u data done hb := by
    have hb' : (if u ∈ s.readWaits then (s.thread u).resume else s.thread u) =
      .blocked (.write data) done := hb
    split_ifs at hb'
    · exact absurd hb' (resume_ne_blocked _ _ _)
    · exact h.write u data done hb'

/-! ## The steps -/

section
variable (h : s.WakeInv)
include h

theorem WakeInv.set (hx : ∀ request done, x ≠ .blocked request done) : (s.set t x).WakeInv :=
  { h with listed := h.listed.set hx }

theorem readTurn_inv (t n done : Nat) : (s.readTurn t n done).WakeInv := by
  unfold readTurn
  by_cases hn : done < n
  swap
  · rw [if_neg hn]
    exact h.set (by simp)
  rw [if_pos hn]
  obtain ⟨-, hs | hs⟩ | ⟨bytes, q, h0, hs, hring, hused, hread, hwrite, -⟩ :=
    s.pipe.readRound_cases h.ring hn
  · rw [hs]
    exact h.set (by simp)
  · rw [hs]
    exact h.set (by simp)
  rw [hs]
  have hpos := h.data h0
  have hnone := h.noReader h0
  have hl := (h.listed.setPipe { s.pipe with toPipe := q }).set (t := t)
    (x := .turn (.read n) (done + bytes.length)) (by simp)
  -- the writer that waits is the one that is woken
  obtain ⟨h1, h2, h3, h4⟩ := wakeWriter_spec hl h.writers
  have hr := h4.trans hnone
  exact {
    listed := h1
    ring := by rw [h2]; exact hring
    nonneg := by
      rw [h2]
      show 0 ≤ q.canRead
      rw [hread]
      split_ifs <;> omega
    data := by
      rw [h2]
      show 0 < q.ring.used → 0 < q.canRead
      intro hu
      rw [hread, if_neg (by omega)]
      exact hpos
    room := by
      rw [h2]
      show q.ring.used < pipeCap → 0 < q.canWrite
      rw [hwrite]
      exact fun _ => by decide
    readers := by rw [hr]; exact Nat.zero_le _
    writers := by rw [h3]; exact Nat.zero_le _
    noReader := fun _ => hr
    noWriter := fun _ => h3 }

theorem writeTurn_inv (t : Nat) (data : List UInt8) (done : Nat) :
    (s.writeTurn t data done).WakeInv := by
  unfold writeTurn
  by_cases hd : done < data.length
  swap
  · rw [if_neg hd]
    exact h.set (by simp)
  rw [if_pos hd]
  obtain ⟨-, hs⟩ | ⟨bytes, q, h0, hs, hring, hused, hread, hwrite, -⟩ :=
    s.pipe.writeRound_cases h.ring hd
  · rw [hs]
    exact h.set (by simp)
  rw [hs]
  have hnone := h.noWriter h0
  have hl := (h.listed.setPipe { s.pipe with toPipe := q }).set (t := t)
    (x := .turn (.write data) (done + bytes.length)) (by simp)
  -- the reader that waits is the one that is woken
  obtain ⟨h1, h2, h3, h4⟩ := wakeReader_spec hl h.readers
  have hw := h4.trans hnone
  exact {
    listed := h1
    ring := by rw [h2]; exact hring
    nonneg := by
      rw [h2]
      show 0 ≤ q.canRead
      omega
    data := by
      rw [h2]
      show 0 < q.ring.used → 0 < q.canRead
      omega
    room := by
      rw [h2]
      show q.ring.used < pipeCap → 0 < q.canWrite
      intro hu
      rw [hwrite, if_pos hu]
      decide
    readers := by rw [h3]; exact Nat.zero_le _
    writers := by rw [hw]; exact Nat.zero_le _
    noReader := fun _ => h3
    noWriter := fun _ => hw }

theorem waitRead_inv {n : Nat} (halone : 0 < s.pipe.canRead ∨ s.readWaits = []) :
    (s.waitRead t n done).WakeInv := by
  unfold waitRead
  by_cases hc : s.pipe.canRead > 0
  · rw [if_pos hc]
    exact h.set (by simp)
  rw [if_neg hc]
  have hnil : s.readWaits = [] := halone.resolve_left hc
  have hempty : ¬ 0 < s.pipe.ring.used := fun hu => hc (h.data hu)
  exact { h with
    listed := {
      read := fun u m done' hb => by
        by_cases hu : u = t
        · exact List.mem_append_right _ (List.mem_singleton.2 hu)
        · exact List.mem_append_left _
            (h.listed.read u m done' ((update_of_ne hu ..).symm.trans hb))
      write := fun u data done' hb => by
        by_cases hu : u = t
        · subst hu
          cases (update_self ..).symm.trans hb
        · exact h.listed.write u data done' ((update_of_ne hu ..).symm.trans hb) }
    readers := by simp [hnil]
    noReader := fun hu => absurd hu hempty }

theorem waitWrite_inv {data : List UInt8} (halone : 0 < s.pipe.canWrite ∨ s.writeWaits = []) :
    (s.waitWrite t data done).WakeInv := by
  unfold waitWrite
  by_cases hc : s.pipe.canWrite > 0
  · rw [if_pos hc]
    exact h.set (by simp)
  rw [if_neg hc]
  have hnil : s.writeWaits = [] := halone.resolve_left hc
  have hfull : ¬ s.pipe.ring.used < pipeCap := fun hu => hc (h.room hu)
  exact { h with
    listed := {
      read := fun u m done' hb => by
        by_cases hu : u = t
        · subst hu
          cases (update_self ..).symm.trans hb
        · exact h.listed.read u m done' ((update_of_ne hu ..).symm.trans hb)
      write := fun u data' done' hb => by
        by_cases hu : u = t
        · exact List.mem_append_right _ (List.mem_singleton.2 hu)
        · exact List.mem_append_left _
            (h.listed.write u data' done' ((update_of_ne hu ..).symm.trans hb)) }
    writers := by simp [hnil]
    noWriter := fun hu => absurd hu hfull }

theorem go_inv (ha : WaitsAlone s (.go t)) : (s.go t).WakeInv := by
  have ha' : (s.thread t).Alone s := ha
  unfold go
  split
  · exact h
  · exact h
  · exact readTurn_inv h ..
  · exact writeTurn_inv h ..
  · rename_i hx
    rw [hx] at ha'
    exact waitRead_inv h ha'
  · rename_i hx
    rw [hx] at ha'
    exact waitWrite_inv h ha'

/-- A change to the pipe that leaves the ring and the room alone and does not take a signal away. -/
theorem WakeInv.setPipe {p : PipeObject} (hring : p.ring = s.pipe.ring)
    (hread : s.pipe.canRead ≤ p.canRead) (hwrite : p.canWrite = s.pipe.canWrite) :
    (s.setPipe p).WakeInv where
  listed := h.listed.setPipe p
  ring := hring ▸ h.ring
  nonneg := h.nonneg.trans hread
  data := hring ▸ fun hu => (h.data hu).trans_le hread
  room := by
    show p.ring.used < pipeCap → 0 < p.canWrite
    rw [hring, hwrite]
    exact h.room
  readers := h.readers
  writers := h.writers
  noReader := hring ▸ h.noReader
  noWriter := hring ▸ h.noWriter

theorem close_inv {acc : Access} (hlt : s.pipe.canRead < 2 ^ 31 - 1) : (s.close acc).WakeInv := by
  obtain ⟨h1, h2, -, h4⟩ := s.pipe.pipeClose_view acc
  have hle : s.pipe.canRead ≤ (s.pipe.pipeClose acc).canRead := by
    rw [h4]
    split_ifs
    · rw [(i32_succ h.nonneg (by omega)).2 hlt]
      omega
    · exact le_rfl
  have hinv := h.setPipe h1 hle h2
  unfold close
  simp only
  split_ifs
  · exact { hinv with
      listed := wakeReaders_listed hinv.listed
      readers := Nat.zero_le _
      noReader := fun _ => rfl }
  · exact hinv

theorem pipeThreadStep_inv {s' : PipeThreads} {a : PipeThreadOp} (ha : WaitsAlone s a)
    (hs : pipeThreadStep s a = some s') : s'.WakeInv := by
  cases a with
  | call t request =>
    simp only [pipeThreadStep] at hs
    split at hs
    · cases hs
      exact h.set (by simp)
    · cases hs
  | go t =>
    cases hs
    exact go_inv h ha
  | pipeOpen acc =>
    cases hs
    obtain ⟨h1, h2, h3, -⟩ := s.pipe.pipeOpen_view acc
    exact h.setPipe h1 h2.ge h3
  | pipeClose acc =>
    cases hs
    exact close_inv h ha

end

end PipeThreads

/-- As long as no two threads wait on one dispatcher, none sleeps on data or on room. -/
theorem pipe_no_sleeper {ops : List PipeThreadOp} {s : PipeThreads}
    (hl : Run.Legal pipeThreadStep WaitsAlone .init ops)
    (hr : Run.run pipeThreadStep .init ops = some s) : s.NoSleeper :=
  (Run.run_keeps (fun _ _ _ h => PipeThreads.pipeThreadStep_inv h) PipeThreads.wakeInv_init hl
    hr).noSleeper

/-- A reader and a writer take turns. -/
theorem pipe_no_sleeper_one : ∃ s, Run.run pipeThreadStep .init
    [.call 0 (.read 1), .go 0, .go 0, .call 1 (.write [5, 6]), .go 1, .go 0, .go 0] = some s ∧
    s.pipe.ring.used = 1 ∧ s.NoSleeper := by
  have hl : Run.Legal pipeThreadStep WaitsAlone .init
      [.call 0 (.read 1), .go 0, .go 0, .call 1 (.write [5, 6]), .go 1, .go 0, .go 0] := by
    decide +kernel
  exact ⟨_, rfl, rfl, pipe_no_sleeper hl rfl⟩

/-- Two readers wait, two bytes are written, and the reader that was woken takes one: the other
sleeps although there is a byte. -/
theorem pipe_sleeper : ∃ s, Run.run pipeThreadStep .init
    [.call 0 (.read 1), .call 1 (.read 1), .go 0, .go 0, .go 1, .go 1,
      .call 2 (.write [5, 6]), .go 2, .go 2, .go 0, .go 0] = some s ∧
    s.Settled ∧ 0 < s.pipe.ring.used ∧ s.thread 1 = .blocked (.read 1) 0 := by
  refine ⟨_, rfl, fun t => ?_, by decide, rfl⟩
  match t with
  | 0 => exact .inl rfl
  | 1 => exact .inr ⟨_, _, rfl⟩
  | 2 => exact .inl rfl
  | t + 3 => exact .inl rfl

end Aegis
