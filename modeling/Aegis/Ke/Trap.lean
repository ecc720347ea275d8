import Aegis.Config
import Aegis.Lib.Run
import Aegis.Lib.WordStack

/-!
# Into and out of the kernel (`hal/isr.S`, `hal/idt.c`, `ke/switch.S`, `ke/enter_user.S`,
`ke/syscall_entry.S`, hardware build)

`Machine` is the CPU with the memory of the IST stacks, and the threads that `context_switch`
switches between. Every gate has an IST stack, so a frame is always built at the top of that stack.
The code between the transitions is any `work` of the registers, and the handlers may `store` to
the stack below their frame. The kernel stacks are each used by one thread only and are not
modelled; what `syscall_entry` keeps on them is in the thread's `Pos`.

A step that does not return (a masked interrupt, a panic, a fault) is `none`.
-/

namespace Aegis

open WordStack Function

abbrev Reg := BitVec 64

/-! ## Registers -/

/-- The registers that a frame holds. -/
structure Regs where
  r15 : Reg
  r14 : Reg
  r13 : Reg
  r12 : Reg
  r11 : Reg
  r10 : Reg
  r9 : Reg
  r8 : Reg
  rdi : Reg
  rsi : Reg
  rbp : Reg
  rbx : Reg
  rdx : Reg
  rcx : Reg
  rax : Reg
  rip : Reg
  cs : Reg
  rflags : Reg
  rsp : Reg
  ss : Reg
  deriving DecidableEq, Repr

namespace Regs

/-- The registers are those of user mode. -/
def User (r : Regs) : Prop := r.cs &&& 3#64 ≠ 0
  deriving Decidable

def interruptible (r : Regs) : Bool := r.rflags.getLsbD 9

/-- The words that an interrupt pushes: the CPU's five, the error code and the vector, and then the
registers that `isr_common` pushes. -/
def pushed (r : Regs) (error vector : Reg) : List Reg :=
  [r.ss, r.rsp, r.rflags, r.cs, r.rip, error, vector, r.rax, r.rcx, r.rdx, r.rbx, r.rbp, r.rsi,
    r.rdi, r.r8, r.r9, r.r10, r.r11, r.r12, r.r13, r.r14, r.r15]

/-- The end of `isr_common`, with its `iretq`, from a `trap_frame_t`. -/
def popped : List Reg → Option Regs
  | [r15, r14, r13, r12, r11, r10, r9, r8, rdi, rsi, rbp, rbx, rdx, rcx, rax, _, _, rip, cs, rflags,
      rsp, ss] =>
    some { r15, r14, r13, r12, r11, r10, r9, r8, rdi, rsi, rbp, rbx, rdx, rcx, rax, rip, cs, rflags,
           rsp, ss }
  | _ => none

end Regs

/-! ## Stacks -/

def kstackSize : Nat := 16 * 1024
def kstackStride : Nat := 32 * 1024
def kernelStackBase : Nat := 0xFFFFA00000000000
def istStackBase : Nat := kernelStackBase + 256 * kstackStride

/-- `sizes` of `tss_map_ist`. -/
def istSize (k : Nat) : Nat := if k = 4 then kstackSize else 2 * pageSize

/-- `tss.ist[k - 1]`; the page at the bottom is the guard. -/
def istTop (k : Nat) : Nat := istStackBase + (k - 1) * kstackStride + pageSize + istSize k

/-- The IST stack of a gate (`idt_init`). -/
def istOf (vector : Nat) : Nat :=
  if vector = 8 then 1 else if vector = 2 then 2 else if vector = 18 then 3 else 4

/-- The address of the `trap_frame_t` on a stack. -/
def frameBase (k : Nat) : Nat := istTop k - 8 * 22

/-! ## Threads -/

/-- Where a thread is. -/
inductive Pos
  /-- In kernel code, before it has been in user mode. -/
  | kernel
  | user
  /-- Behind `syscall_entry`, which has pushed the user's `rip`, `rflags` and `rsp`. -/
  | syscall (rip rflags rsp : Reg)
  /-- In `isr_dispatch` on an IST stack, for code that was in user mode, or inside a system call, or
  neither. -/
  | isr (k : Nat) (inside : Bool)
  deriving DecidableEq, Repr

/-- The thread has entered from user mode and not left yet. -/
def Pos.inside : Pos → Bool
  | .kernel | .user => false
  | .syscall .. => true
  | .isr _ inside => inside

@[simp] theorem Pos.inside_kernel : Pos.kernel.inside = false := rfl
@[simp] theorem Pos.inside_user : Pos.user.inside = false := rfl
@[simp] theorem Pos.inside_syscall (rip rflags rsp : Reg) :
    (Pos.syscall rip rflags rsp).inside = true := rfl
@[simp] theorem Pos.inside_isr (k : Nat) (inside : Bool) : (Pos.isr k inside).inside = inside := rfl

/-- The IST stack that the thread is on. -/
def Pos.ist : Pos → Option Nat
  | .isr k _ => some k
  | _ => none

/-- `context_t`. -/
structure Context where
  r15 : Reg
  r14 : Reg
  r13 : Reg
  r12 : Reg
  rbx : Reg
  rbp : Reg
  rip : Reg
  rsp : Reg
  rflags : Reg
  deriving DecidableEq, Repr

/-- The processor and its threads. -/
structure Machine where
  regs : Regs
  gsBase : Reg
  /-- `KERNEL_GS_BASE`. -/
  kernelGsBase : Reg
  /-- The address of the PCB. -/
  pcb : Reg
  /-- `kernel_rsp` and `user_rsp` of the PCB. -/
  kernelRsp : Reg
  userRsp : Reg
  /-- The IST stacks. -/
  mem : Nat → Reg
  /-- Where the code is that the frame on an IST stack goes back to. -/
  behind : Nat → Pos
  nthread : Nat
  current : Nat
  pos : Nat → Pos
  ctx : Nat → Context
  /-- The top of the kernel stack of a thread. -/
  kstack : Nat → Reg
  /-- The registers of a thread when it was interrupted. -/
  interrupted : Nat → Regs
  /-- A thread has been switched out inside a system call, or an interrupt from user mode. -/
  leftInside : Bool

namespace Machine

variable (m : Machine)

def setPos (p : Pos) : Machine := { m with pos := update m.pos m.current p }

/-- `swapgs`. -/
def swapgs : Machine :=
  { m with gsBase := m.kernelGsBase, kernelGsBase := m.gsBase }

/-! ## Interrupts -/

/-- The vectors whose stub does not push a zero (`STUB vec, 1`). -/
def hasError (vector : Nat) : Bool := vector ∈ [8, 10, 11, 12, 13, 14, 17]

/-- `isr_dispatch` panics: for a double fault, an NMI or a machine check, and for everything but the
clock and the keyboard when it comes from the kernel. -/
def Panics (vector : Nat) : Prop :=
  vector = 8 ∨ vector = 2 ∨ vector = 18 ∨
    m.regs.cs &&& 3#64 ≠ 3#64 ∧ vector ≠ 32 ∧ vector ≠ 33
  deriving Decidable

/-- An interrupt up to the call of `isr_dispatch`. The gate clears `TF`, `IF`, `NT`, `RF` and `VM`. -/
def enterIsr (vector : Nat) (error : Reg) : Machine :=
  let k := istOf vector
  let error := if hasError vector then error else 0
  let frame := m.regs.pushed error (if vector > 33 then 0xFF else BitVec.ofNat 64 vector)
  let m' := { m with
    mem := pushAll m.mem (istTop k) frame
    behind := update m.behind k (m.pos m.current)
    interrupted := update m.interrupted m.current m.regs
    regs := { m.regs with
      rsp := BitVec.ofNat 64 (frameBase k)
      rdi := BitVec.ofNat 64 (frameBase k)
      rax := m.regs.cs
      cs := 0x08
      ss := if m.regs.User then 0 else m.regs.ss
      rflags := m.regs.rflags &&& ~~~0x34300#64
      rip := 0 } }
  let inside := (m.pos m.current).inside || m.pos m.current = .user
  (if m.regs.User then m'.swapgs else m').setPos (.isr k inside)

/-- The PIC's in-service bits are left out: more interrupts arrive here than on the machine. -/
def interrupt (vector : Nat) (error : Reg) : Option Machine :=
  if vector ≥ 32 ∧ m.regs.interruptible = false then none
  else if m.Panics vector then none
  else some (m.enterIsr vector error)

/-- The rest of `isr_common`, behind the call. -/
def iret : Option Machine :=
  match m.pos m.current with
  | .isr k _ =>
    (Regs.popped (read m.mem (frameBase k) 22)).map fun r =>
      { (if r.User then m.swapgs else m).setPos (m.behind k) with regs := r }
  | _ => none

/-! ## Switches -/

/-- What `context_switch` saves. -/
def saved (r : Regs) : Context :=
  { r15 := r.r15, r14 := r.r14, r13 := r.r13, r12 := r.r12, rbx := r.rbx, rbp := r.rbp
    rip := r.rip, rsp := r.rsp, rflags := r.rflags }

/-- What it loads; `rax` has had the return address. -/
def loaded (r : Regs) (c : Context) : Regs :=
  { r with
    r15 := c.r15, r14 := c.r14, r13 := c.r13, r12 := c.r12, rbx := c.rbx, rbp := c.rbp
    rip := c.rip, rsp := c.rsp, rflags := c.rflags, rax := c.rip }

/-- The end of `sched_reschedule`, when another thread is to run. -/
def contextSwitch (next : Nat) : Machine :=
  { m with
    kernelRsp := m.kstack next
    ctx := update m.ctx m.current (saved m.regs)
    regs := loaded m.regs (m.ctx next)
    current := next
    leftInside := m.leftInside || (m.pos m.current).inside }

/-- `context_switch`. -/
def switch (next : Nat) : Option Machine :=
  if m.pos m.current = .user then none
  else if next = m.current then some m
  else some (m.contextSwitch next)

/-! ## User mode -/

/-- `enter_user`. -/
def enterUser (rip rsp rflags : Reg) : Option Machine :=
  if m.pos m.current = .kernel then
    some { m.setPos .user with
      regs :=
        { r15 := 0, r14 := 0, r13 := 0, r12 := 0, r11 := 0, r10 := 0, r9 := 0, r8 := 0, rdi := 0
          rsi := 0, rbp := 0, rbx := 0, rdx := 0, rcx := 0, rax := 0, rip, cs := 0x23
          rflags := rflags ||| 0x200, rsp, ss := 0x1B } }
  else none

/-- The `syscall` instruction and `syscall_entry` up to its call. Without the PCB behind `gs` the
accesses to it fault. -/
def syscallEntry : Option Machine :=
  if m.pos m.current = .user then
    let m' := m.swapgs
    if m'.gsBase = m'.pcb then
      some { m'.setPos (.syscall m.regs.rip m.regs.rflags m.regs.rsp) with
        userRsp := m.regs.rsp
        regs := { m.regs with
          rcx := m.regs.rip
          r11 := m.regs.rflags
          rip := 0
          rflags := m.regs.rflags &&& ~~~0x257FD#64
          cs := 0x08
          ss := 0x10
          rsp := m.kernelRsp - 80#64
          rdi := m.kernelRsp - 80#64 } }
    else none
  else none

/-- The end of `syscall_entry`. A return address outside the canonical half ends in `ud2`, which
panics. -/
def sysret : Option Machine :=
  match m.pos m.current with
  | .syscall rip rflags rsp =>
    if rip >>> 47 ≠ 0 then none
    else
      some { m.swapgs.setPos .user with
        regs := { m.regs with
          rdx := rip >>> 47
          rcx := rip
          r11 := rflags
          rip := rip
          rflags := rflags &&& 0x3C7FD7#64 ||| 2#64
          cs := 0x23
          ss := 0x1B
          rsp := rsp } }
  | _ => none

end Machine

/-! ## Steps -/

/-- Steps of the processor. -/
inductive TrapOp
  /-- Code of the thread that runs, on its own stack, or of a handler. -/
  | work (r : Regs)
  /-- A handler writes to its IST stack. -/
  | store (a : Nat) (w : Reg)
  | interrupt (vector : Nat) (error : Reg)
  | iret
  | switch (next : Nat)
  | enterUser (rip rsp rflags : Reg)
  | syscall
  | sysret

def trapStep (m : Machine) : TrapOp → Option Machine
  | .work r => some { m with regs := r }
  | .store a w => some { m with mem := update m.mem a w }
  | .interrupt vector error => m.interrupt vector error
  | .iret => m.iret
  | .switch next => m.switch next
  | .enterUser rip rsp rflags => m.enterUser rip rsp rflags
  | .syscall => m.syscallEntry
  | .sysret => m.sysret

/-- What code may do: it stays at its privilege level, only the kernel's own threads change `IF`,
and a handler writes below its frame. -/
def TrapOk (m : Machine) : TrapOp → Prop
  | .work r => r.cs = m.regs.cs ∧
      (m.pos m.current = .kernel ∨ r.interruptible = m.regs.interruptible)
  | .store a _ => (m.pos m.current).ist ≠ none ∧ ∀ k < 5, a + 8 ≤ frameBase k ∨ istTop k ≤ a
  | .switch next => next < m.nthread
  | .interrupt .. | .iret | .enterUser .. | .syscall | .sysret => True

instance (m : Machine) (op : TrapOp) : Decidable (TrapOk m op) := by
  cases op <;> dsimp only [TrapOk] <;> infer_instance

/-- `syscall_init` has been called, and the thread 0 runs. -/
def trapInit (pcb : Reg) (nthread : Nat) (regs : Regs) (ctx : Nat → Context) (kstack : Nat → Reg) :
    Machine :=
  { regs, gsBase := 0, kernelGsBase := pcb, pcb, kernelRsp := kstack 0, userRsp := 0
    mem := fun _ => 0, behind := fun _ => .kernel, nthread, current := 0, pos := fun _ => .kernel
    ctx, kstack, interrupted := fun _ => regs, leftInside := false }

end Aegis
