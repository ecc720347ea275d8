import Aegis.Config
import Aegis.Lib.Trace

/-!
# Lazy FPU switching (`ke/fpu.c`, hardware build)

The machine `FpuState` has one register file, `CR0.TS`, the owner pointer and a save area per
thread. Its operations are what can happen to them: a switch of `sched_reschedule`, an FPU or SSE
instruction of the running thread (which takes `#NM` first when TS is set), and the exit of the
running thread. An instruction is any function of the registers, and what it sees is shown.

`Eager` is the machine that saves and restores the registers on every switch, `Private` the one in
which every thread has registers of its own.
-/

namespace Aegis

open Trace Function

abbrev Tid := Nat

/-- The x87, MMX and SSE registers, as `fxsaveq` stores them. -/
structure FpuRegs where
  fcw : BitVec 16
  fsw : BitVec 16
  /-- One bit per x87 register: not empty. -/
  ftw : BitVec 8
  fop : BitVec 16
  fip : BitVec 64
  fdp : BitVec 64
  mxcsr : BitVec 32
  /-- The x87 registers; the MMX registers are the same ones. -/
  st : Fin 8 → BitVec 80
  xmm : Fin 16 → BitVec 128
  deriving DecidableEq

def FpuRegs.zero : FpuRegs := ⟨0, 0, 0, 0, 0, 0, 0, fun _ => 0, fun _ => 0⟩

/-- The architectural initial state. -/
def FpuRegs.initial : FpuRegs := { FpuRegs.zero with fcw := 0x037F, mxcsr := 0x1F80 }

/-- `fninit`: the data registers keep their contents. -/
def FpuRegs.fninit (r : FpuRegs) : FpuRegs :=
  { r with fcw := 0x037F, fsw := 0, ftw := 0, fop := 0, fip := 0, fdp := 0 }

def FpuRegs.ldmxcsr (r : FpuRegs) (v : BitVec 32) : FpuRegs := { r with mxcsr := v }

/-- The unit, and what the kernel keeps of it. -/
structure FpuState where
  regs : FpuRegs
  /-- `CR0.TS`. -/
  ts : Bool
  /-- `g_fpu_owner`. -/
  owner : Option Tid
  /-- `t->fpu_state`. -/
  area : Tid → FpuRegs
  /-- `t->fpu_used`. -/
  used : Tid → Bool
  current : Option Tid
  terminated : Tid → Bool

/-- An operation; `insn f` is an instruction that turns the registers `r` into `f r`. -/
inductive FpuOp
  | switch (next : Tid)
  | insn (f : FpuRegs → FpuRegs)
  | exit

namespace FpuState

/-- `fpu_init`, with the registers the boot code left. -/
def fpuInit (boot : FpuRegs) : FpuState where
  regs := boot.fninit.ldmxcsr 0x1F80
  ts := true
  owner := none
  area _ := .zero
  used _ := false
  current := none
  terminated _ := false

variable (s : FpuState)

/-- `fxsaveq` into the area of `t`. -/
def fxsave (t : Tid) : FpuState :=
  { s with area := update s.area t s.regs }

/-- The first part of `fpu_nm`: the registers of another owner are saved. -/
def saveOwner (t : Tid) : FpuState :=
  match s.owner with
  | some u => if u ≠ t then s.fxsave u else s
  | none => s

/-- The second part: the registers of `t` are loaded, or set up if it has none. -/
def loadRegs (t : Tid) : FpuState :=
  if s.used t then { s with regs := s.area t }
  else { s with
    regs := s.regs.fninit.ldmxcsr 0x1F80
    area := update s.area t { FpuRegs.zero with fcw := 0x037F }
    used := update s.used t true }

/-- `fpu_nm`. -/
def fpuNm (t : Tid) : FpuState :=
  let s := { s with ts := false }
  { (s.saveOwner t).loadRegs t with owner := some t }

/-- `fpu_lazy_switch`. -/
def fpuLazySwitch : FpuState := { s with ts := true }

/-- `fpu_drop`. -/
def fpuDrop (t : Tid) : FpuState :=
  if s.owner ≠ some t then s
  else
    let s := if s.ts = false then s.fxsave t else s
    { s with owner := none, ts := true }

/-- A switch to the running thread is none; a terminated thread is never the next one. -/
def step : FpuOp → Option (Option (Tid × FpuRegs) × FpuState)
  | .switch next =>
    if s.terminated next then none
    else if s.current = some next then some (none, s)
    else some (none, { s with current := some next }.fpuLazySwitch)
  | .insn f =>
    match s.current with
    | none => none
    | some t =>
      let s := if s.ts then s.fpuNm t else s
      some (some (t, s.regs), { s with regs := f s.regs })
  | .exit =>
    match s.current with
    | none => none
    | some t =>
      some (none,
        { s.fpuDrop t with current := none, terminated := update s.terminated t true })

end FpuState

/-! ## What the scheme stands for -/

/-- Registers saved and restored on every switch. -/
structure Eager where
  regs : FpuRegs
  area : Tid → FpuRegs
  current : Option Tid
  terminated : Tid → Bool

namespace Eager

def init (boot : FpuRegs) : Eager := ⟨boot, fun _ => .initial, none, fun _ => false⟩

/-- The save areas once the running thread is saved. -/
def saved (s : Eager) : Tid → FpuRegs :=
  match s.current with
  | some t => update s.area t s.regs
  | none => s.area

def step (s : Eager) : FpuOp → Option (Option (Tid × FpuRegs) × Eager)
  | .switch next =>
    if s.terminated next then none
    else if s.current = some next then some (none, s)
    else some (none, { s with regs := s.saved next, area := s.saved, current := some next })
  | .insn f =>
    match s.current with
    | none => none
    | some t => some (some (t, s.regs), { s with regs := f s.regs })
  | .exit =>
    match s.current with
    | none => none
    | some t =>
      some (none,
        { s with current := none, terminated := update s.terminated t true })

end Eager

/-- A register file for every thread: what it left behind the last time it ran. -/
structure Private where
  file : Tid → FpuRegs
  current : Option Tid
  terminated : Tid → Bool

namespace Private

def init : Private := ⟨fun _ => .initial, none, fun _ => false⟩

def step (s : Private) : FpuOp → Option (Option (Tid × FpuRegs) × Private)
  | .switch next => if s.terminated next then none else some (none, { s with current := some next })
  | .insn f =>
    match s.current with
    | none => none
    | some t => some (some (t, s.file t), { s with file := update s.file t (f (s.file t)) })
  | .exit =>
    match s.current with
    | none => none
    | some t =>
      some (none,
        { s with current := none, terminated := update s.terminated t true })

end Private

/-- An instruction that traps finds what the handler takes for granted: the save area of a thread
that still owns the registers holds what they hold, and for a thread that has not used them before
the registers that `fninit` and `ldmxcsr` leave alone are zero. -/
def FpuCond (s : FpuState) : FpuOp → Prop
  | .insn _ => ∀ t, s.current = some t → s.ts = true →
    (s.used t = true → s.owner = some t → s.area t = s.regs) ∧
    (s.used t = false → s.regs.st = (fun _ => 0) ∧ s.regs.xmm = fun _ => 0)
  | _ => True

end Aegis
