import Aegis.Ke.Fpu

/-!
# When lazy switching is transparent

`Lazy s p`: the one register file and the save areas of `s` hold the private registers of `p`. A
step keeps it, and shows what `p` shows, exactly if the step meets `FpuCond`: a thread that traps
while it still owns the registers gets its save area back, and one that traps for the first time
gets the data registers of the previous owner.
-/

namespace Aegis

open Function

variable {e : Eager} {a : FpuOp} {p p' : Private} {s : FpuState} {o o' : Option (Tid × FpuRegs)}

open Trace

/-- The registers are the owner's, the save area of any other thread is up to date. -/
structure Lazy (s : FpuState) (p : Private) : Prop where
  current : s.current = p.current
  terminated : s.terminated = p.terminated
  clear : s.ts = false → s.owner = s.current ∧ s.current ≠ none
  owner : ∀ t, s.owner = some t → s.used t = true ∧ p.file t = s.regs ∧ s.terminated t = false
  saved : ∀ t, s.used t = true → s.owner ≠ some t → s.terminated t = false → p.file t = s.area t
  fresh : ∀ t, s.used t = false → p.file t = .initial
  running : ∀ t, s.current = some t → s.terminated t = false

theorem lazy_init (boot : FpuRegs) : Lazy (.fpuInit boot) .init where
  current := rfl
  terminated := rfl
  clear h := by cases h
  owner _ h := by cases h
  saved _ h := by cases h
  fresh _ _ := rfl
  running _ h := by cases h

/-! ## The trap -/

namespace FpuState
variable (s : FpuState) (t : Tid)

theorem saveOwner_area (u : Tid) :
    (s.saveOwner t).area u = if u ≠ t ∧ s.owner = some u then s.regs else s.area u := by
  unfold saveOwner fxsave
  cases s.owner with
  | none => simp
  | some w =>
    by_cases hwt : w = t
    · subst hwt
      simp [eq_comm]
    · by_cases hwu : w = u
      · subst hwu
        simp [hwt]
      · simp [hwt, hwu, update_of_ne (Ne.symm hwu)]

theorem saveOwner_eq : s.saveOwner t = { s with area := (s.saveOwner t).area } := by
  unfold saveOwner fxsave
  split
  · split <;> rfl
  · rfl

theorem loadRegs_eq : s.loadRegs t = { s with
    regs := if s.used t then s.area t else s.regs.fninit.ldmxcsr 0x1F80
    area := (s.loadRegs t).area
    used := update s.used t true } := by
  unfold loadRegs
  cases hu : s.used t with
  | false => simp
  | true =>
    have : update s.used t true = s.used := by rw [← hu, update_eq_self]
    simp [this]

theorem loadRegs_area {u : Tid} (hut : u ≠ t) : (s.loadRegs t).area u = s.area u := by
  unfold loadRegs
  split
  · rfl
  · exact update_of_ne hut _ _

@[simp] theorem fpuNm_current : (s.fpuNm t).current = s.current := by
  rw [fpuNm, loadRegs_eq, saveOwner_eq]

@[simp] theorem fpuNm_terminated : (s.fpuNm t).terminated = s.terminated := by
  rw [fpuNm, loadRegs_eq, saveOwner_eq]

@[simp] theorem fpuNm_owner : (s.fpuNm t).owner = some t := rfl

@[simp] theorem fpuNm_used (u : Tid) : (s.fpuNm t).used u = true ↔ u = t ∨ s.used u = true := by
  rw [fpuNm, loadRegs_eq, saveOwner_eq]
  by_cases hut : u = t
  · simp [hut]
  · simp [hut]

theorem fpuNm_area {u : Tid} (hut : u ≠ t) :
    (s.fpuNm t).area u = if s.owner = some u then s.regs else s.area u := by
  show (loadRegs _ t).area u = _
  rw [loadRegs_area _ _ hut, saveOwner_area]
  simp [hut]

theorem fpuNm_regs : (s.fpuNm t).regs =
    if s.used t then s.area t else s.regs.fninit.ldmxcsr 0x1F80 := by
  have harea : ({ s with ts := false }.saveOwner t).area t = s.area t := by
    rw [saveOwner_area]
    simp
  rw [fpuNm, loadRegs_eq, saveOwner_eq, harea]

end FpuState

theorem fresh_regs_iff (r : FpuRegs) :
    r.fninit.ldmxcsr 0x1F80 = .initial ↔ r.st = (fun _ => 0) ∧ r.xmm = fun _ => 0 := by
  simp [FpuRegs.fninit, FpuRegs.ldmxcsr, FpuRegs.initial, FpuRegs.zero]

section
variable {s : FpuState} {p : Private} {t : Tid} (h : Lazy s p)
include h

theorem fpuNm_regs_iff (ht : s.terminated t = false) :
    (s.fpuNm t).regs = p.file t ↔
      (s.used t = true → s.owner = some t → s.area t = s.regs) ∧
      (s.used t = false → s.regs.st = (fun _ => 0) ∧ s.regs.xmm = fun _ => 0) := by
  rw [FpuState.fpuNm_regs]
  cases hu : s.used t with
  | false =>
    rw [h.fresh t hu]
    simpa using fresh_regs_iff s.regs
  | true =>
    by_cases ho : s.owner = some t
    · simp [ho, (h.owner t ho).2.1]
    · simp [ho, h.saved t hu ho ht]

theorem fpuNm_lazy (hcur : s.current = some t) (hregs : (s.fpuNm t).regs = p.file t) :
    Lazy (s.fpuNm t) p := by
  refine ⟨by simpa using h.current, by simpa using h.terminated, fun _ => ?_, fun u hu => ?_,
    fun u hu ho hu' => ?_, fun u hu => ?_, fun u hu => ?_⟩
  · simp [hcur]
  · obtain rfl : t = u := by simpa using hu
    exact ⟨by simp, hregs.symm, by simpa using h.running t hcur⟩
  · have hut : u ≠ t := fun e => ho (by simp [e])
    rw [FpuState.fpuNm_area s t hut]
    simp only [FpuState.fpuNm_used, hut, false_or, FpuState.fpuNm_terminated] at hu hu'
    split
    · next hou => exact (h.owner u hou).2.1
    · next hou => exact h.saved u hu hou hu'
  · apply h.fresh
    rw [← Bool.not_eq_true, FpuState.fpuNm_used, not_or] at hu
    simpa using hu.2
  · rw [FpuState.fpuNm_terminated]
    exact h.running u (by simpa using hu)

theorem insn_lazy (ho : s.owner = some t) (f : FpuRegs → FpuRegs) :
    Lazy { s with regs := f s.regs } { p with file := update p.file t (f (p.file t)) } := by
  obtain ⟨hut, hf, ht⟩ := h.owner t ho
  refine ⟨h.current, h.terminated, h.clear, fun u hu => ?_, fun u hu hou hu' => ?_,
    fun u hu => ?_, h.running⟩
  · obtain rfl : t = u := by simpa [ho] using hu
    exact ⟨hut, by simp [hf], ht⟩
  · have hut' : u ≠ t := fun e => hou (by rw [e]; exact ho)
    show update p.file t (f (p.file t)) u = s.area u
    rw [update_of_ne hut']
    exact h.saved u hu hou hu'
  · have hut' : u ≠ t := fun e => by rw [e, hut] at hu; cases hu
    show update p.file t (f (p.file t)) u = .initial
    rw [update_of_ne hut']
    exact h.fresh u hu

theorem switch_lazy (hn : s.terminated t = false) :
    Lazy { s with current := some t }.fpuLazySwitch { p with current := some t } := by
  refine ⟨rfl, h.terminated, fun hts => (by cases hts), h.owner, h.saved, h.fresh, fun u hu => ?_⟩
  obtain rfl : t = u := by simpa [FpuState.fpuLazySwitch] using hu
  exact hn

theorem exit_lazy (hcur : s.current = some t) :
    Lazy { s.fpuDrop t with current := none, terminated := update s.terminated t true }
      { p with current := none, terminated := update p.terminated t true } := by
  have hlive : ∀ u, update s.terminated t true u = false →
      u ≠ t ∧ s.terminated u = false := by
    intro u hu
    by_cases hut : u = t
    · simp [hut] at hu
    · exact ⟨hut, by simpa [hut] using hu⟩
  have hdrop : ∀ u, u ≠ t → (s.fpuDrop t).area u = s.area u := by
    intro u hut
    simp only [FpuState.fpuDrop, FpuState.fxsave]
    split
    · rfl
    · split <;> simp [hut]
  have hused : (s.fpuDrop t).used = s.used := by
    simp only [FpuState.fpuDrop, FpuState.fxsave]
    split <;> (try split) <;> rfl
  have hown : ∀ u, (s.fpuDrop t).owner = some u ↔ u ≠ t ∧ s.owner = some u := by
    intro u
    simp only [FpuState.fpuDrop]
    by_cases ho : s.owner = some t
    · simp only [ho, ne_eq, not_true_eq_false, if_false, Option.some.injEq]
      simp [eq_comm]
    · simp only [ho, ne_eq, not_false_eq_true, if_true]
      exact ⟨fun hu => ⟨fun e => ho (e ▸ hu), hu⟩, And.right⟩
  have hregs : (s.fpuDrop t).regs = s.regs := by
    simp only [FpuState.fpuDrop, FpuState.fxsave]
    split <;> (try split) <;> rfl
  refine ⟨rfl, by rw [h.terminated], fun hts => ?_, fun u hu => ?_, fun u hu ho hu' => ?_,
    fun u hu => ?_, fun u hu => by cases hu⟩
  · -- TS clear means that the exiting thread owned the registers, and then it is set.
    exfalso
    change (s.fpuDrop t).ts = false at hts
    simp only [FpuState.fpuDrop] at hts
    by_cases ho : s.owner = some t
    · simp [ho] at hts
    · simp only [ho, ne_eq, not_false_eq_true, if_true] at hts
      exact ho ((h.clear hts).1.trans hcur)
  · obtain ⟨hut, hou⟩ := (hown u).1 hu
    obtain ⟨h1, h2, h3⟩ := h.owner u hou
    exact ⟨by rw [hused]; exact h1, by rw [hregs]; exact h2, by simpa [hut] using h3⟩
  · obtain ⟨hut, hlu⟩ := hlive u hu'
    change (s.fpuDrop t).owner ≠ some u at ho
    change (s.fpuDrop t).used u = true at hu
    rw [hused] at hu
    rw [ne_eq, hown, not_and] at ho
    show p.file u = (s.fpuDrop t).area u
    rw [hdrop u hut]
    exact h.saved u hu (ho hut) hlu
  · change (s.fpuDrop t).used u = false at hu
    rw [hused] at hu
    exact h.fresh u hu

end

/-! ## One step -/

namespace FpuState
variable {s : FpuState} {t : Tid}

theorem step_insn (hc : s.current = some t) (hts : s.ts = false) (f : FpuRegs → FpuRegs) :
    s.step (.insn f) = some (some (t, s.regs), { s with regs := f s.regs }) := by
  simp [step, hc, hts]

theorem step_insn_trap (hc : s.current = some t) (hts : s.ts = true) (f : FpuRegs → FpuRegs) :
    s.step (.insn f) = some (some (t, (s.fpuNm t).regs),
      { s.fpuNm t with regs := f (s.fpuNm t).regs }) := by
  simp [step, hc, hts]

end FpuState

namespace Private
variable {p : Private} {t : Tid}

theorem step_insn (hc : p.current = some t) (f : FpuRegs → FpuRegs) :
    p.step (.insn f) = some (some (t, p.file t),
      { p with file := update p.file t (f (p.file t)) }) := by
  simp [step, hc]

theorem step_isSome (a : FpuOp) : (p.step a).isSome = match a with
    | .switch t => !p.terminated t
    | _ => p.current.isSome := by
  cases a with
  | switch t => cases ht : p.terminated t <;> simp [step, ht]
  | insn f => cases hc : p.current <;> simp [step, hc]
  | exit => cases hc : p.current <;> simp [step, hc]

end Private

theorem lazy_step {s' : FpuState} (h : Lazy s p) (hs : s.step a = some (o, s'))
    (hp : p.step a = some (o', p')) : (o = o' ↔ FpuCond s a) ∧ (FpuCond s a → Lazy s' p') := by
  cases a with
  | switch next =>
    have hn : s.terminated next = false := by
      by_contra hn
      simp [FpuState.step, hn] at hs
    rw [Private.step, if_neg (by simp [← h.terminated, hn])] at hp
    cases hp
    by_cases hc : s.current = some next
    · rw [FpuState.step, if_neg (by simp [hn]), if_pos hc] at hs
      cases hs
      have hself : { p with current := some next } = p := by rw [← hc, h.current]
      exact ⟨by simp [FpuCond], fun _ => by rw [hself]; exact h⟩
    · rw [FpuState.step, if_neg (by simp [hn]), if_neg hc] at hs
      cases hs
      exact ⟨by simp [FpuCond], fun _ => switch_lazy h hn⟩
  | insn f =>
    cases hc : s.current with
    | none => simp [FpuState.step, hc] at hs
    | some t =>
      rw [Private.step_insn (h.current ▸ hc)] at hp
      cases hp
      cases hts : s.ts with
      | false =>
        rw [FpuState.step_insn hc hts] at hs
        cases hs
        have ho : s.owner = some t := (h.clear hts).1.trans hc
        refine ⟨?_, fun _ => insn_lazy h ho f⟩
        simp [FpuCond, hts, (h.owner t ho).2.1]
      | true =>
        rw [FpuState.step_insn_trap hc hts] at hs
        cases hs
        have hiff : (s.fpuNm t).regs = p.file t ↔ FpuCond s (.insn f) := by
          rw [fpuNm_regs_iff h (h.running t hc)]
          constructor
          · intro hq u hu _
            obtain rfl : t = u := by simpa [hc] using hu
            exact hq
          · exact fun hq => hq t hc hts
        refine ⟨by simpa using hiff, fun hcond => ?_⟩
        have hreg := hiff.2 hcond
        rw [← hreg]
        have hn := insn_lazy (fpuNm_lazy h hc hreg) (s.fpuNm_owner t) f
        rwa [← hreg] at hn
  | exit =>
    cases hc : s.current with
    | none => simp [FpuState.step, hc] at hs
    | some t =>
      simp only [FpuState.step, hc] at hs
      simp only [Private.step, ← h.current, hc] at hp
      cases hs
      cases hp
      exact ⟨by simp [FpuCond], fun _ => exit_lazy h hc⟩

theorem lazy_step_isSome (h : Lazy s p) (a : FpuOp) : (s.step a).isSome = (p.step a).isSome := by
  rw [Private.step_isSome, ← h.terminated, ← h.current]
  cases a with
  | switch next =>
    simp only [FpuState.step]
    split
    · next ht => simp [ht]
    · next ht => split <;> simp [ht]
  | insn f => cases hc : s.current <;> simp [FpuState.step, hc]
  | exit => cases hc : s.current <;> simp [FpuState.step, hc]

/-! ## Saving and restoring on every switch -/

theorem Eager.step_insn {t : Tid} (hc : e.current = some t) (f : FpuRegs → FpuRegs) :
    e.step (.insn f) = some (some (t, e.regs), { e with regs := f e.regs }) := by
  simp [step, hc]

/-- The registers of the running thread and the areas of the others are the private ones. -/
structure Saves (e : Eager) (p : Private) : Prop where
  current : e.current = p.current
  terminated : e.terminated = p.terminated
  regs : ∀ t, e.current = some t → p.file t = e.regs
  area : ∀ t, e.current ≠ some t → e.terminated t = false → p.file t = e.area t

theorem Saves.saved (h : Saves e p) {t : Tid} (ht : e.terminated t = false) :
    p.file t = e.saved t := by
  unfold Eager.saved
  cases hc : e.current with
  | none => exact h.area t (by simp [hc]) ht
  | some u =>
    by_cases htu : t = u
    · subst htu
      simpa using h.regs t hc
    · have := h.area t (by simpa [hc] using Ne.symm htu) ht
      simpa [htu] using this

theorem saves_step {e' : Eager} (h : Saves e p) (he : e.step a = some (o, e'))
    (hp : p.step a = some (o', p')) : o = o' ∧ Saves e' p' := by
  cases a with
  | switch next =>
    have hn : e.terminated next = false := by
      by_contra hn
      simp [Eager.step, hn] at he
    rw [Private.step, if_neg (by simp [← h.terminated, hn])] at hp
    cases hp
    by_cases hc : e.current = some next
    · rw [Eager.step, if_neg (by simp [hn]), if_pos hc] at he
      cases he
      have hself : { p with current := some next } = p := by rw [← hc, h.current]
      exact ⟨rfl, by rw [hself]; exact h⟩
    · rw [Eager.step, if_neg (by simp [hn]), if_neg hc] at he
      cases he
      refine ⟨rfl, rfl, h.terminated, fun t ht => ?_, fun t _ ht => h.saved ht⟩
      obtain rfl : next = t := by simpa using ht
      exact h.saved hn
  | insn f =>
    cases hc : e.current with
    | none => simp [Eager.step, hc] at he
    | some t =>
      rw [Eager.step_insn hc] at he
      rw [Private.step_insn (h.current ▸ hc)] at hp
      cases he
      cases hp
      refine ⟨by rw [h.regs t hc], h.current, h.terminated, fun u hu => ?_, fun u hu hlu => ?_⟩
      · obtain rfl : t = u := by simpa [hc] using hu
        simp [h.regs t hc]
      · have hut : u ≠ t := fun hut => hu (by rw [hut]; exact hc)
        simpa [hut] using h.area u hu hlu
  | exit =>
    cases hc : e.current with
    | none => simp [Eager.step, hc] at he
    | some t =>
      simp only [Eager.step, hc] at he
      simp only [Private.step, ← h.current, hc] at hp
      cases he
      cases hp
      refine ⟨rfl, rfl, by rw [h.terminated], fun u hu => (by cases hu), fun u _ hlu => ?_⟩
      have hut : u ≠ t := fun hut => by simp [hut] at hlu
      have hlu' : e.terminated u = false := by simpa [hut] using hlu
      exact h.area u (by simpa [hc] using Ne.symm hut) hlu'

theorem saves_step_isSome (h : Saves e p) (a : FpuOp) : (e.step a).isSome = (p.step a).isSome := by
  rw [Private.step_isSome, ← h.terminated, ← h.current]
  cases a with
  | switch next =>
    simp only [Eager.step]
    split
    · next ht => simp [ht]
    · next ht => split <;> simp [ht]
  | insn f => cases hc : e.current <;> simp [Eager.step, hc]
  | exit => cases hc : e.current <;> simp [Eager.step, hc]

/-- Saving and restoring on every switch gives every thread registers of its own. -/
theorem eager_trace_eq (boot : FpuRegs) (ops : List FpuOp) :
    trace Eager.step (.init boot) ops = trace Private.step .init ops := by
  have hinit : Saves (.init boot) .init :=
    ⟨rfl, rfl, fun _ h => (by cases h), fun _ _ _ => rfl⟩
  exact trace_eq (R := Saves) (fun _ _ a h => saves_step_isSome h a)
    (fun _ _ _ _ _ _ _ => saves_step) hinit ops

/-! ## Whole runs -/

/-- **Lazy FPU switching.** After `fpu_init`, whatever the boot code left in the registers, every
instruction of a run sees what its thread left behind, and what it would see if the registers were
saved and restored on every switch, exactly if every trap of the run meets `FpuCond`. -/
theorem fpu_lazy_transparent (boot : FpuRegs) (ops : List FpuOp) :
    (trace FpuState.step (.fpuInit boot) ops = trace Private.step .init ops ∧
      trace FpuState.step (.fpuInit boot) ops = trace Eager.step (.init boot) ops) ↔
    Meets FpuState.step FpuCond (.fpuInit boot) ops := by
  rw [eager_trace_eq, and_self]
  exact trace_eq_iff (R := Lazy) (fun _ _ a h => lazy_step_isSome h a)
    (fun _ _ _ _ _ _ _ => lazy_step)
    (lazy_init boot) ops

/-- Thread 1 sets `xmm0`, is switched out and in again while nobody else uses the FPU, and sees a
zeroed register and `MXCSR` 0 instead; thread 2 sees the value on its first use. -/
theorem fpu_registers_lost : let set : FpuOp := .insn fun r => { r with xmm := fun _ => 7 }
    let look : FpuOp := .insn id
    (trace FpuState.step (.fpuInit .zero) [.switch 1, set, .switch 2, .switch 1, look] ≠
      trace Eager.step (.init .zero) [.switch 1, set, .switch 2, .switch 1, look]) ∧
    trace FpuState.step (.fpuInit .zero) [.switch 1, set, .switch 2, look] ≠
      trace Eager.step (.init .zero) [.switch 1, set, .switch 2, look] := by
  constructor
  · intro h
    have := congrArg (List.map (Option.map fun o => o.2.xmm 0)) h
    revert this
    decide
  · intro h
    have := congrArg (List.map (Option.map fun o => o.2.xmm 0)) h
    revert this
    decide

end Aegis
