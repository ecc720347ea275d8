import Aegis.Ob.PipeReady
import Aegis.Ob.Proof.Pipe

/-!
# When a pipe is ready

One lemma for each call says what it does to the four things that readiness is about; `KeepsReady`
turns out to be exactly when the call keeps the pipe ready.
-/

namespace Aegis

variable {done : Nat} {p : Pipe}

open RingBuffer

/-! ## The rounds -/

theorem Pipe.readRound_cases {n : Nat} (h : Ok pipeCap p.ring) (hn : done < n) :
    (p.ring.used = 0 ∧ (p.readRound n done = .stop ∨ p.readRound n done = .wait)) ∨
      ∃ bytes q, 0 < p.ring.used ∧ p.readRound n done = .took bytes q ∧ Ok pipeCap q.ring ∧
        q.ring.used = p.ring.used - (n - done) ∧
        q.canRead = (if q.ring.used = 0 then 0 else p.canRead) ∧ q.canWrite = 1 ∧
        q.writerClosed = p.writerClosed := by
  have hcap : pipeCap = 4096 := rfl
  have hu := h.used_le
  have htake : u32 (min (n - done) p.ring.used) = min (n - done) p.ring.used :=
    u32_of_lt (by omega)
  obtain ⟨h1, h2, -, -⟩ := popMany_spec h (Nat.min_le_right (n - done) p.ring.used)
  unfold Pipe.readRound
  by_cases h0 : p.ring.used = 0
  · rw [if_pos h0]
    refine .inl ⟨h0, ?_⟩
    split_ifs <;> simp
  · rw [if_neg h0]
    simp only [htake]
    refine .inr ⟨_, _, by omega, rfl, h1, ?_, rfl, rfl, rfl⟩
    rw [h2]
    omega

theorem Pipe.writeRound_cases {data : List UInt8} (h : Ok pipeCap p.ring)
    (hd : done < data.length) :
    (p.ring.used = pipeCap ∧ p.writeRound data done = .wait) ∨
      ∃ bytes q, p.ring.used < pipeCap ∧ p.writeRound data done = .put bytes q ∧
        Ok pipeCap q.ring ∧ p.ring.used < q.ring.used ∧ q.canRead = 1 ∧
        q.canWrite = (if q.ring.used < pipeCap then 1 else 0) ∧
        q.writerClosed = p.writerClosed := by
  have hcap : pipeCap = 4096 := rfl
  have hu := h.used_le
  have htake : u32 (min (data.length - done) (pipeCap - p.ring.used)) =
      min (data.length - done) (pipeCap - p.ring.used) := u32_of_lt (by omega)
  have hlen : ((data.drop done).take
      (min (data.length - done) (pipeCap - p.ring.used))).length =
        min (data.length - done) (pipeCap - p.ring.used) := by
    simp
  unfold Pipe.writeRound
  by_cases h0 : p.ring.used = pipeCap
  · exact .inl ⟨h0, if_pos h0⟩
  · rw [if_neg h0]
    simp only [htake]
    obtain ⟨h1, h2, -⟩ := pushMany_spec h
      (l := (data.drop done).take (min (data.length - done) (pipeCap - p.ring.used))) (by omega)
    refine .inr ⟨_, _, by omega, rfl, h1, ?_, rfl, rfl, rfl⟩
    rw [h2, hlen]
    omega

/-! ## The callbacks -/

namespace PipeObject

theorem pipeOpen_view (p : PipeObject) (acc : Access) :
    (p.pipeOpen acc).ring = p.ring ∧ (p.pipeOpen acc).canRead = p.canRead ∧
      (p.pipeOpen acc).canWrite = p.canWrite ∧
      (p.pipeOpen acc).writerClosed =
        (if acc &&& fileWriteData ≠ 0 then false else p.writerClosed) := by
  unfold pipeOpen
  split_ifs <;> exact ⟨rfl, rfl, rfl, rfl⟩

theorem closeEnds_view (p : PipeObject) (acc : Access) :
    (p.closeEnds acc).ring = p.ring ∧ (p.closeEnds acc).canRead = p.canRead ∧
      (p.closeEnds acc).canWrite = p.canWrite ∧
      (p.writerClosed = true → (p.closeEnds acc).writerClosed = true) := by
  unfold closeEnds
  split_ifs <;> exact ⟨rfl, rfl, rfl, fun h => by simp [h]⟩

theorem pipeClose_view (p : PipeObject) (acc : Access) :
    (p.pipeClose acc).ring = p.ring ∧ (p.pipeClose acc).canWrite = p.canWrite ∧
      (p.pipeClose acc).writerClosed = (p.closeEnds acc).writerClosed ∧
      (p.pipeClose acc).canRead =
        (if (p.closeEnds acc).writerClosed then i32 (p.canRead + 1) else p.canRead) := by
  obtain ⟨h1, h2, h3, -⟩ := p.closeEnds_view acc
  unfold pipeClose
  by_cases h : (p.closeEnds acc).writerClosed = true
  · simp only [h, if_true, h1, h2, h3, and_self]
  · simp only [h, h1, h2, h3, and_self, Bool.false_eq_true, if_false]

end PipeObject

theorem i32_succ {n : Int} (h0 : 0 ≤ n) (h : n < 2 ^ 31) :
    (0 < i32 (n + 1) ↔ n < 2 ^ 31 - 1) ∧ (n < 2 ^ 31 - 1 → i32 (n + 1) = n + 1) := by
  simp only [i32, Int.bmod]
  omega

/-! ## Readiness over a run -/

/-- `can_read` does not wrap. -/
structure PipeObject.Inv (p : PipeObject) : Prop where
  ring : Ok pipeCap p.ring
  nonneg : 0 ≤ p.canRead
  bound : p.canRead < 2 ^ 31

theorem PipeObject.inv_init : PipeObject.init.Inv :=
  ⟨⟨by decide, by decide, by decide⟩, by decide, by decide⟩

theorem Pipe.ready_init : Pipe.init.Ready := ⟨by decide, by decide⟩

section
variable {p : PipeObject}

section
variable (hi : p.Inv) (hr : p.Ready)
include hi hr

theorem pipeOpen_ready (acc : Access) :
    ((p.pipeOpen acc).Ready ↔ KeepsReady p (.pipeOpen acc)) ∧ (p.pipeOpen acc).Inv := by
  obtain ⟨h1, h2, h3, h4⟩ := p.pipeOpen_view acc
  refine ⟨?_, ⟨h1 ▸ hi.ring, h2 ▸ hi.nonneg, h2 ▸ hi.bound⟩⟩
  have hread : (p.pipeOpen acc).Ready ↔
      (0 < p.canRead ↔ 0 < p.ring.used ∨ (p.pipeOpen acc).writerClosed = true) := by
    rw [← h1, ← h2]
    exact ⟨fun h => h.canRead, fun h => ⟨h, by rw [h3, h1]; exact hr.canWrite⟩⟩
  rw [hread, hr.canRead, h4]
  by_cases hw : acc &&& fileWriteData ≠ 0
  · simp only [KeepsReady, hw, if_true, Bool.false_eq_true, or_false, true_implies,
      or_iff_left_iff_imp, ne_eq, not_false_eq_true]
  · simp only [if_neg hw, KeepsReady, iff_self, true_iff]
    exact fun h => absurd h hw

theorem pipeClose_ready (acc : Access) :
    ((p.pipeClose acc).Ready ↔ KeepsReady p (.pipeClose acc)) ∧
      ((p.pipeClose acc).Ready → (p.pipeClose acc).Inv) := by
  obtain ⟨h1, h2, h3, h4⟩ := p.pipeClose_view acc
  obtain ⟨-, -, -, hstay⟩ := p.closeEnds_view acc
  have hwrite : 0 < (p.pipeClose acc).canWrite ↔ (p.pipeClose acc).ring.used < pipeCap := by
    rw [h2, h1]
    exact hr.canWrite
  by_cases hc : (p.closeEnds acc).writerClosed = true
  · rw [if_pos hc] at h4
    obtain ⟨hpos, hval⟩ := i32_succ hi.nonneg hi.bound
    have hread : (p.pipeClose acc).Ready ↔ p.canRead < 2 ^ 31 - 1 := by
      rw [← hpos, ← h4]
      constructor
      · intro h
        exact h.canRead.2 (.inr (h3.trans hc))
      · intro h
        exact ⟨⟨fun _ => .inr (h3.trans hc), fun _ => h⟩, hwrite⟩
    refine ⟨?_, fun h => ?_⟩
    · rw [hread]
      exact ⟨fun h _ => h, fun h => h hc⟩
    · have hlt := hread.1 h
      have h5 := h4.trans (hval hlt)
      have h0 := hi.nonneg
      exact ⟨h1 ▸ hi.ring, by omega, by omega⟩
  · rw [if_neg hc] at h4
    have hopen : p.writerClosed = false := by
      cases hp : p.writerClosed
      · rfl
      · exact absurd (hstay hp) hc
    have hclosed : (p.pipeClose acc).writerClosed = p.writerClosed := by
      rw [h3, hopen]
      simpa using hc
    refine ⟨⟨fun _ hc' => absurd hc' hc, fun _ => ⟨?_, hwrite⟩⟩, fun _ => ?_⟩
    · rw [h4, h1, hclosed]
      exact hr.canRead
    · exact ⟨h1 ▸ hi.ring, h4 ▸ hi.nonneg, h4 ▸ hi.bound⟩

theorem read_ready (n done : Nat) :
    ∃ q, readyStep p (.read n done) = some q ∧ (q.Ready ↔ KeepsReady p (.read n done)) ∧ q.Inv := by
  by_cases hn : done < n
  swap
  · exact ⟨p, if_neg hn, ⟨fun _ h => absurd h hn, fun _ => hr⟩, hi⟩
  simp only [readyStep, if_pos hn]
  obtain ⟨h0, hs | hs⟩ | ⟨bytes, q, h0, hs, hring, hused, hread, hwrite, hclosed⟩ :=
    p.readRound_cases hi.ring hn
  · rw [hs]
    exact ⟨p, rfl, ⟨fun _ _ _ h => by omega, fun _ => hr⟩, hi⟩
  · rw [hs]
    exact ⟨p, rfl, ⟨fun _ _ _ h => by omega, fun _ => hr⟩, hi⟩
  rw [hs]
  have hcap : pipeCap = 4096 := rfl
  have hle := hi.ring.used_le
  have hpos := hr.canRead.2 (.inl h0)
  have hroom : 0 < q.canWrite ↔ q.ring.used < pipeCap := by
    rw [hwrite]
    omega
  refine ⟨_, rfl, ?_, ?_⟩
  · by_cases he : q.ring.used = 0
    · rw [if_pos he] at hread
      constructor
      · intro h _ hc
        have := h.canRead.2 (.inr (hclosed.trans hc))
        rw [show ({ p with toPipe := q } : PipeObject).canRead = q.canRead from rfl] at this
        omega
      · intro h
        refine ⟨⟨fun h' => ?_, fun h' => ?_⟩, hroom⟩
        · rw [show ({ p with toPipe := q } : PipeObject).canRead = q.canRead from rfl] at h'
          omega
        · rcases h' with h' | h'
          · exact absurd he h'.ne'
          · have := h hn (hclosed.symm.trans h') h0
            omega
    · rw [if_neg he] at hread
      have hne : 0 < q.ring.used := Nat.pos_of_ne_zero he
      refine ⟨fun _ _ _ _ => by omega, fun _ => ⟨⟨fun _ => .inl hne, fun _ => ?_⟩, hroom⟩⟩
      show 0 < q.canRead
      omega
  · have h1 := hi.nonneg
    have h2 := hi.bound
    refine ⟨hring, ?_, ?_⟩
    · show 0 ≤ q.canRead
      rw [hread]
      split_ifs <;> omega
    · show q.canRead < 2 ^ 31
      rw [hread]
      split_ifs <;> omega

theorem write_ready (data : List UInt8) (done : Nat) :
    ∃ q, readyStep p (.write data done) = some q ∧ q.Ready ∧ q.Inv := by
  by_cases hd : done < data.length
  swap
  · exact ⟨p, if_neg hd, hr, hi⟩
  simp only [readyStep, if_pos hd]
  obtain ⟨-, hs⟩ | ⟨bytes, q, -, hs, hring, hused, hread, hwrite, -⟩ :=
    p.writeRound_cases hi.ring hd
  · rw [hs]
    exact ⟨p, rfl, hr, hi⟩
  rw [hs]
  refine ⟨_, rfl, ⟨?_, ?_⟩, ⟨hring, ?_, ?_⟩⟩
  · show 0 < q.canRead ↔ 0 < q.ring.used ∨ q.writerClosed = true
    rw [hread]
    exact ⟨fun _ => .inl (by omega), fun _ => by decide⟩
  · show 0 < q.canWrite ↔ q.ring.used < pipeCap
    rw [hwrite]
    split_ifs with h <;> simp [h]
  · show 0 ≤ q.canRead
    omega
  · show q.canRead < 2 ^ 31
    omega

end

theorem readyStep_ready (a : ReadyOp) (hi : p.Inv) (hr : p.Ready) :
    ∃ q, readyStep p a = some q ∧ (q.Ready ↔ KeepsReady p a) ∧ (q.Ready → q.Inv) := by
  cases a with
  | pipeOpen acc =>
    obtain ⟨h1, h2⟩ := pipeOpen_ready hi hr acc
    exact ⟨_, rfl, h1, fun _ => h2⟩
  | pipeClose acc => exact ⟨_, rfl, pipeClose_ready hi hr acc⟩
  | read n done =>
    obtain ⟨q, hq, h1, h2⟩ := read_ready hi hr n done
    exact ⟨q, hq, h1, fun _ => h2⟩
  | write data done =>
    obtain ⟨q, hq, h1, h2⟩ := write_ready hi hr data done
    exact ⟨q, hq, ⟨fun _ => trivial, fun _ => h1⟩, fun _ => h2⟩

end

theorem Pipe.Ready.not_waitBlocks (h : p.Ready) (hc : p.writerClosed = true) : ¬ p.WaitBlocks := by
  intro hb
  exact hb (h.canRead.2 (.inr hc))

theorem Pipe.Ready.not_spins (h : p.Ready) : ¬ p.Spins := by
  rintro ⟨hu, hc, hs⟩
  obtain hu' | hc' := h.canRead.1 hs
  · exact hu'.ne' hu
  · exact absurd (hc'.symm.trans hc) (by decide)

/-- A pipe is ready all along exactly the runs whose steps keep it ready; then no wait blocks at
the end of the stream, and no read spins. -/
theorem pipe_ready_iff (ops : List ReadyOp) :
    (Run.Always readyStep (fun p => p.Ready) .init ops ↔
      Run.Legal readyStep KeepsReady .init ops) ∧
    (Run.Legal readyStep KeepsReady .init ops →
      Run.Always readyStep (fun p => (p.writerClosed = true → ¬ p.WaitBlocks) ∧ ¬ p.Spins)
        .init ops) := by
  have htrue : Run.Legal readyStep (fun _ _ => True) .init ops :=
    Run.legal_of_forall fun _ _ _ => trivial
  have hiff := Run.always_iff_legal (fun p a hi hr _ => readyStep_ready a hi hr)
    PipeObject.inv_init Pipe.ready_init htrue
  refine ⟨hiff, fun hl => ?_⟩
  exact (hiff.2 hl).imp fun p hr => ⟨hr.not_waitBlocks, hr.not_spins⟩

/-- The last byte is read after the writer has closed its end: a reader that waits for the end of
the stream now blocks. -/
theorem pipe_eof_not_ready :
    ¬ Run.Always readyStep (fun p => p.Ready) .init
      [.pipeOpen fileReadData, .pipeOpen fileWriteData, .write [7] 0, .pipeClose fileWriteData,
        .read 1 0] := by
  intro h
  have hr := (h.2 _ rfl).2 _ rfl |>.2 _ rfl |>.2 _ rfl |>.2 _ rfl
  exact absurd (hr.canRead.2 (.inr (by decide))) (by decide)

end Aegis
