import Aegis.Ob.Pipe

/-!
# A pipe is a byte stream

`PipeInv`: the ring is a queue, the records split at it, and every call has its part. One lemma for
a turn of `pipe_read`, one for a turn of `pipe_write`.
-/

namespace Aegis

variable {done n : Nat} {p p' : Pipe} {bytes data : List UInt8}

open RingBuffer

theorem stream_append (l l' : List (Nat × List UInt8)) :
    stream (l ++ l') = stream l ++ stream l' := by simp [stream]

theorem streamOf_append (i : Nat) (l l' : List (Nat × List UInt8)) :
    streamOf i (l ++ l') = streamOf i l ++ streamOf i l' := by simp [streamOf, stream]

@[simp] theorem streamOf_self (i : Nat) (b : List UInt8) : streamOf i [(i, b)] = b := by
  simp [streamOf, stream]

theorem streamOf_of_ne {i j : Nat} (h : j ≠ i) (b : List UInt8) : streamOf i [(j, b)] = [] := by
  simp [streamOf, stream, h]

theorem streamOf_new {l : List (Nat × List UInt8)} (h : ∀ x ∈ l, x.1 < n) : streamOf n l = [] := by
  have : l.filter (fun x => x.1 = n) = [] := by
    rw [List.filter_eq_nil_iff]
    intro x hx
    have := h x hx
    simp
    omega
  rw [streamOf, this]
  rfl

/-- What every interleaving keeps: delivered bytes and those in the ring are the accepted ones, in
order, and each call has its record. -/
structure PipeInv (s : PipeSys) : Prop where
  ring : Ok pipeCap s.pipe.ring
  stream : stream s.delivered ++ contents pipeCap s.pipe.ring = stream s.accepted
  calls : ∀ i (c : Call), s.calls[i]? = some c → c.Recorded s i
  delivered_lt : ∀ x ∈ s.delivered, x.1 < s.calls.length
  accepted_lt : ∀ x ∈ s.accepted, x.1 < s.calls.length

theorem pipeInv_init : PipeInv .init where
  ring := ⟨by decide, by decide, by decide⟩
  stream := rfl
  calls := by simp [PipeSys.init]
  delivered_lt := by simp [PipeSys.init]
  accepted_lt := by simp [PipeSys.init]

/-! ## The rounds -/

theorem readRound_took (h : Ok pipeCap p.ring) (hr : p.readRound n done = .took bytes p') :
    Ok pipeCap p'.ring ∧ contents pipeCap p.ring = bytes ++ contents pipeCap p'.ring ∧
      bytes.length ≤ n - done := by
  unfold Pipe.readRound at hr
  split at hr
  · split at hr
    · cases hr
    · split at hr <;> cases hr
  · have hcap : pipeCap = 4096 := rfl
    have hu := h.used_le
    have htake : u32 (min (n - done) p.ring.used) = min (n - done) p.ring.used :=
      u32_of_lt (by omega)
    rw [htake] at hr
    obtain ⟨h1, -, h3, h4⟩ := popMany_spec h (Nat.min_le_right (n - done) p.ring.used)
    cases hr
    exact ⟨h1, h4, by rw [h3]; exact Nat.min_le_left _ _⟩

theorem writeRound_put (h : Ok pipeCap p.ring) (hr : p.writeRound data done = .put bytes p') :
    Ok pipeCap p'.ring ∧ contents pipeCap p'.ring = contents pipeCap p.ring ++ bytes ∧
      ∃ k, bytes = (data.drop done).take k := by
  unfold Pipe.writeRound at hr
  split at hr
  · cases hr
  · have hcap : pipeCap = 4096 := rfl
    have hu := h.used_le
    have htake : u32 (min (data.length - done) (pipeCap - p.ring.used)) =
        min (data.length - done) (pipeCap - p.ring.used) := u32_of_lt (by omega)
    simp only [htake] at hr
    have hlen : ((data.drop done).take
        (min (data.length - done) (pipeCap - p.ring.used))).length ≤ pipeCap - p.ring.used := by
      simp
    obtain ⟨h1, -, h3⟩ := pushMany_spec h
      (l := (data.drop done).take (min (data.length - done) (pipeCap - p.ring.used))) (by omega)
    cases hr
    exact ⟨h1, h3, _, rfl⟩

theorem prefix_extend {moved : List UInt8} (hp : moved <+: data)
    (hb : ∃ k, bytes = (data.drop moved.length).take k) : moved ++ bytes <+: data := by
  obtain ⟨k, rfl⟩ := hb
  obtain ⟨rest, rfl⟩ := hp
  rw [List.drop_left]
  exact ⟨rest.drop k, by simp⟩

/-! ## The turns -/

section
variable {s : PipeSys} {i : Nat} {c : Call}

theorem Call.Recorded.congr {s' : PipeSys} {j : Nat} {d : Call} (h : d.Recorded s j)
    (hd : streamOf j s'.delivered = streamOf j s.delivered)
    (ha : streamOf j s'.accepted = streamOf j s.accepted) : d.Recorded s' j := by
  unfold Call.Recorded at h ⊢
  split at h
  · rwa [hd]
  · rwa [ha]

theorem setCall_recorded {s' : PipeSys} {c' : Call} (h : PipeInv s) (hc : s.calls[i]? = some c)
    (hcalls : s'.calls = s.calls.set i c') (hnew : c'.Recorded s' i)
    (hd : ∀ j, j ≠ i → streamOf j s'.delivered = streamOf j s.delivered)
    (ha : ∀ j, j ≠ i → streamOf j s'.accepted = streamOf j s.accepted) :
    ∀ j (d : Call), s'.calls[j]? = some d → d.Recorded s' j := by
  intro j d hj
  have hi : i < s.calls.length := (List.getElem?_eq_some_iff.1 hc).1
  rw [hcalls] at hj
  by_cases hij : j = i
  · subst hij
    rw [List.getElem?_set_self hi, Option.some.injEq] at hj
    exact hj ▸ hnew
  · rw [List.getElem?_set_ne (Ne.symm hij)] at hj
    exact (h.calls j d hj).congr (hd j hij) (ha j hij)

theorem finish_inv (h : PipeInv s) (hc : s.calls[i]? = some c) (st : Status)
    (hdone : ∀ data, c.request = .write data → c.moved = data) :
    PipeInv (s.setCall i { c with result := some st }) := by
  refine ⟨h.ring, h.stream, ?_, by simpa [PipeSys.setCall] using h.delivered_lt,
    by simpa [PipeSys.setCall] using h.accepted_lt⟩
  refine setCall_recorded h hc rfl ?_ (fun _ _ => rfl) (fun _ _ => rfl)
  have hrec := h.calls i c hc
  unfold Call.Recorded at hrec ⊢
  cases hq : c.request with
  | read n =>
    simp only [hq] at hrec
    exact hrec
  | write data =>
    simp only [hq] at hrec
    exact ⟨hrec.1, hrec.2.1, fun _ => hdone data hq⟩

theorem log_lt {l : List (Nat × List UInt8)} {bytes : List UInt8} (hc : s.calls[i]? = some c)
    (hl : ∀ x ∈ l, x.1 < s.calls.length) (c' : Call) :
    ∀ x ∈ l ++ [(i, bytes)], x.1 < (s.calls.set i c').length := by
  have hi : i < s.calls.length := (List.getElem?_eq_some_iff.1 hc).1
  intro x hx
  rw [List.length_set]
  rcases List.mem_append.1 hx with hx | hx
  · exact hl x hx
  · rw [List.mem_singleton.1 hx]
    exact hi

theorem readTurn_inv (h : PipeInv s) (hc : s.calls[i]? = some c) {n : Nat}
    (hq : c.request = .read n) : PipeInv (s.readTurn i c n) := by
  have hfin : PipeInv (s.setCall i { c with result := some (PipeSys.readStatus c.moved) }) :=
    finish_inv h hc _ fun data hw => by rw [hq] at hw; cases hw
  unfold PipeSys.readTurn
  split
  · next hlt =>
    split
    · exact hfin
    · exact h
    · next bytes p hr =>
      obtain ⟨hok, hcont, hlen⟩ := readRound_took h.ring hr
      refine ⟨hok, ?_, ?_, log_lt hc h.delivered_lt _,
        by simpa [PipeSys.setCall] using h.accepted_lt⟩
      · rw [stream_append, List.append_assoc]
        show stream s.delivered ++ (stream [(i, bytes)] ++ contents pipeCap p.ring) = _
        rw [show stream [(i, bytes)] = bytes by simp [stream], ← hcont]
        exact h.stream
      · have hrec := h.calls i c hc
        simp only [Call.Recorded, hq] at hrec
        refine setCall_recorded h hc rfl ?_ (fun j hj => ?_) (fun _ _ => rfl)
        · simp only [Call.Recorded, hq, streamOf_append, hrec.1, streamOf_self,
            List.length_append, true_and]
          omega
        · rw [streamOf_append, streamOf_of_ne (Ne.symm hj), List.append_nil]
  · exact hfin

theorem writeTurn_inv (h : PipeInv s) (hc : s.calls[i]? = some c) {data : List UInt8}
    (hq : c.request = .write data) (hr : c.result = none) : PipeInv (s.writeTurn i c data) := by
  have hrec := h.calls i c hc
  simp only [Call.Recorded, hq] at hrec
  unfold PipeSys.writeTurn
  split
  · next hlt =>
    split
    · exact h
    · next bytes p hw =>
      obtain ⟨hok, hcont, hbytes⟩ := writeRound_put h.ring hw
      refine ⟨hok, ?_, ?_, by simpa [PipeSys.setCall] using h.delivered_lt,
        log_lt hc h.accepted_lt _⟩
      · rw [stream_append, ← h.stream, List.append_assoc]
        show stream s.delivered ++ contents pipeCap p.ring = _
        rw [hcont]
        simp [stream]
      · refine setCall_recorded h hc rfl ?_ (fun _ _ => rfl) (fun j hj => ?_)
        · simp only [Call.Recorded, hq, streamOf_append, hrec.1, streamOf_self, true_and]
          exact ⟨prefix_extend hrec.2.1 hbytes, fun hne => absurd hr hne⟩
        · rw [streamOf_append, streamOf_of_ne (Ne.symm hj), List.append_nil]
  · next hge =>
    refine finish_inv h hc _ fun data' hw => ?_
    obtain rfl : data = data' := by
      rw [hq] at hw
      cases hw
      rfl
    exact hrec.2.1.eq_of_length_le (by omega)

theorem step_inv (h : PipeInv s) (op : PipeOp) : PipeInv (s.step op) := by
  cases op with
  | begin request =>
    refine ⟨h.ring, h.stream, fun j d hj => ?_, fun x hx => ?_, fun x hx => ?_⟩
    · simp only [PipeSys.step] at hj
      rw [List.getElem?_append] at hj
      split at hj
      · exact (h.calls j d hj).congr rfl rfl
      · next hlt =>
        obtain ⟨hj0, rfl⟩ : j - s.calls.length = 0 ∧ d = ⟨request, [], none⟩ := by
          have := List.getElem?_eq_some_iff.1 hj
          obtain ⟨h0, h1⟩ := this
          have h0' : j - s.calls.length = 0 := by simpa using h0
          simp only [h0', List.getElem_cons_zero] at h1
          exact ⟨h0', h1.symm⟩
        obtain rfl : j = s.calls.length := by omega
        unfold Call.Recorded
        cases request with
        | read n => exact ⟨streamOf_new h.delivered_lt, by simp⟩
        | write data => exact ⟨streamOf_new h.accepted_lt, List.nil_prefix, by simp⟩
    · have := h.delivered_lt x hx
      simp only [PipeSys.step, List.length_append, List.length_singleton]
      omega
    · have := h.accepted_lt x hx
      simp only [PipeSys.step, List.length_append, List.length_singleton]
      omega
  | round i =>
    simp only [PipeSys.step]
    split
    · exact h
    · next c hc =>
      split
      · exact h
      · next hr =>
        split
        · next n hq => exact readTurn_inv h hc hq
        · next data hq => exact writeTurn_inv h hc hq (by simpa using hr)
  | closed b =>
    exact ⟨h.ring, h.stream, fun j d hj => (h.calls j d hj).congr rfl rfl, h.delivered_lt,
      h.accepted_lt⟩

end

theorem run_pipeInv (ops : List PipeOp) : PipeInv (PipeSys.run ops) := by
  unfold PipeSys.run
  generalize PipeSys.init = s, pipeInv_init = h at *
  induction ops generalizing s with
  | nil => exact h
  | cons op ops ih => exact ih _ (step_inv h op)

/-- **Pipe byte stream.** Whatever calls work on the pipe and however their rounds interleave: the
ring indices agree, no byte is lost, repeated or moved out of order, and every write gives its
bytes in order. -/
theorem pipe_stream (ops : List PipeOp) : Streamed (PipeSys.run ops) where
  used_le := (run_pipeInv ops).ring.used_le
  w_eq := (run_pipeInv ops).ring.w_eq
  stream := (run_pipeInv ops).stream
  calls := (run_pipeInv ops).calls

end Aegis
