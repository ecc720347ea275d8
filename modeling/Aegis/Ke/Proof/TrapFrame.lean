import Aegis.Ke.Trap

/-!
# Frames on the shared interrupt stack

All gates whose handlers return use the same IST stack, and a thread that is switched out in its
handler leaves its frame there. The next interrupt builds its own frame in the same place, and the
thread that is resumed pops that one.

As long as an interrupt is taken only while no thread has a frame on the stack of its gate, every
thread goes on with the registers that it was interrupted with.
-/

namespace Aegis

open WordStack Function

/-- No thread has a frame on the stack of the gate. -/
def FrameFree (m : Machine) : TrapOp → Prop
  | .interrupt vector _ => ∀ t < m.nthread, (m.pos t).ist ≠ some (istOf vector)
  | _ => True

instance (m : Machine) (op : TrapOp) : Decidable (FrameFree m op) := by
  apply TrapOp.casesOn (motive := fun op => Decidable (FrameFree m op)) op <;> intros <;>
    dsimp only [FrameFree] <;> infer_instance

theorem popped_frame (m : Machine) (k : Nat) (r : Regs) (error vector : Reg) :
    Regs.popped (read (pushAll m.mem (istTop k) (r.pushed error vector)) (frameBase k) 22) =
      some r := by
  have h := read_pushAll (r.pushed error vector) m.mem (istTop k)
    (show 8 * 22 ≤ istTop k by
      have : kernelStackBase ≤ istTop k := by
        unfold istTop istStackBase
        omega
      exact le_trans (by decide) this)
  rw [show frameBase k = istTop k - 8 * (r.pushed error vector).length from rfl,
    show 22 = (r.pushed error vector).length from rfl, h]
  rfl

theorem read_frame_store (mem : Nat → Reg) {a : Nat}
    (h : ∀ k < 5, a + 8 ≤ frameBase k ∨ istTop k ≤ a) (w : Reg) :
    read (update mem a w) (frameBase 4) 22 = read mem (frameBase 4) 22 := by
  have hout := h 4 (by decide)
  have hle : 8 * 22 ≤ istTop 4 := by decide
  rw [show frameBase 4 = istTop 4 - 8 * 22 from rfl] at hout ⊢
  exact read_update (by omega) w

/-- Only the gates of the panics have other stacks. -/
theorem istOf_of_not_panics {m : Machine} {vector : Nat} (h : ¬ m.Panics vector) :
    istOf vector = 4 := by
  unfold Machine.Panics at h
  push Not at h
  simp [istOf, h.1, h.2.1, h.2.2.1]

/-- The machine `n` when `m` has been interrupted through a gate on the shared stack. -/
structure Entered (m n : Machine) : Prop where
  current : n.current = m.current
  nthread : n.nthread = m.nthread
  frame : Regs.popped (read n.mem (frameBase 4) 22) = some m.regs
  behind : n.behind = update m.behind 4 (m.pos m.current)
  interrupted : n.interrupted = update m.interrupted m.current m.regs
  pos : n.pos = update m.pos m.current
    (.isr 4 ((m.pos m.current).inside || m.pos m.current = .user))
  regs : ¬ n.regs.User
  bases : n.gsBase = (if m.regs.User then m.swapgs else m).gsBase ∧
    n.kernelGsBase = (if m.regs.User then m.swapgs else m).kernelGsBase
  pcb : n.pcb = m.pcb
  left : n.leftInside = m.leftInside

theorem enterIsr_entered (m : Machine) {vector : Nat} (hk : istOf vector = 4) (error : Reg) :
    Entered m (m.enterIsr vector error) := by
  have hframe := fun e v => popped_frame m 4 m.regs e v
  have hcs : (0x08 : Reg) &&& 3#64 = 0 := by decide
  unfold Machine.enterIsr
  simp only [hk]
  split
  · next hu =>
    exact ⟨rfl, rfl, hframe _ _, rfl, rfl, rfl, fun h => h hcs, by rw [if_pos hu]; exact ⟨rfl, rfl⟩,
      rfl, rfl⟩
  · next hu =>
    exact ⟨rfl, rfl, hframe _ _, rfl, rfl, rfl, fun h => h hcs, by rw [if_neg hu]; exact ⟨rfl, rfl⟩,
      rfl, rfl⟩

/-- The frame of an interrupted thread is on its IST stack. -/
structure FrameInv (m : Machine) : Prop where
  current : m.current < m.nthread
  frames : ∀ t < m.nthread, ∀ k, (m.pos t).ist = some k →
    k = 4 ∧ Regs.popped (read m.mem (frameBase 4) 22) = some (m.interrupted t)
  behind : (m.behind 4).ist = none

namespace FrameInv

variable {m m' : Machine}

theorem setPos (h : FrameInv m) {p : Pos} (hp : p.ist = none) {n : Machine}
    (hmem : n.mem = m.mem) (hpos : n.pos = update m.pos m.current p)
    (hint : n.interrupted = m.interrupted) (hb : n.behind = m.behind) (hn : n.nthread = m.nthread)
    (hc : n.current < m.nthread) : FrameInv n := by
  refine ⟨hc.trans_eq hn.symm, fun t ht k hk => ?_, by rw [hb]; exact h.behind⟩
  rw [hpos] at hk
  rw [hmem, hint]
  by_cases htc : t = m.current
  · subst htc
    rw [update_self, hp] at hk
    cases hk
  · rw [update_of_ne htc] at hk
    exact h.frames t (ht.trans_eq hn) k hk

theorem interrupt (h : FrameInv m) {vector : Nat} {error : Reg}
    (hfree : ∀ t < m.nthread, (m.pos t).ist ≠ some (istOf vector))
    (hr : m.interrupt vector error = some m') : FrameInv m' := by
  unfold Machine.interrupt at hr
  split at hr
  · cases hr
  · split at hr
    · cases hr
    · next hpanic =>
      cases hr
      have hk := istOf_of_not_panics hpanic
      rw [hk] at hfree
      -- the thread is on no IST stack itself, so neither is what its frame goes back to
      have hcur : (m.pos m.current).ist = none := by
        by_contra hne
        obtain ⟨k, hk'⟩ := Option.ne_none_iff_exists'.1 hne
        obtain ⟨rfl, -⟩ := h.frames m.current h.current k hk'
        exact hfree m.current h.current hk'
      have he := enterIsr_entered m hk error
      refine ⟨by rw [he.current, he.nthread]; exact h.current, fun t ht k hk' => ?_, ?_⟩
      · rw [he.pos] at hk'
        rw [he.frame, he.interrupted]
        by_cases htc : t = m.current
        · subst htc
          rw [update_self] at hk' ⊢
          cases hk'
          exact ⟨rfl, rfl⟩
        · rw [update_of_ne htc] at hk'
          rw [he.nthread] at ht
          obtain ⟨rfl, -⟩ := h.frames t ht k hk'
          exact absurd hk' (hfree t ht)
      · rw [he.behind, update_self]
        exact hcur

theorem step (h : FrameInv m) {op : TrapOp} (hok : TrapOk m op) (hfree : FrameFree m op)
    (hr : trapStep m op = some m') : FrameInv m' := by
  cases op with
  | work r =>
    cases hr
    exact ⟨h.current, h.frames, h.behind⟩
  | store a w =>
    cases hr
    refine ⟨h.current, fun t ht k hk => ?_, h.behind⟩
    rw [show ({ m with mem := update m.mem a w } : Machine).mem = _ from rfl,
      read_frame_store m.mem hok.2 w]
    exact h.frames t ht k hk
  | interrupt vector error => exact h.interrupt hfree hr
  | iret =>
    have hr : m.iret = some m' := hr
    unfold Machine.iret at hr
    split at hr
    · next k i hpos =>
      obtain ⟨rfl, -⟩ := h.frames m.current h.current k (by rw [hpos]; rfl)
      obtain ⟨r, -, rfl⟩ := Option.map_eq_some_iff.1 hr
      split
      · exact h.setPos h.behind rfl rfl rfl rfl rfl h.current
      · exact h.setPos h.behind rfl rfl rfl rfl rfl h.current
    · cases hr
  | switch next =>
    have hr : m.switch next = some m' := hr
    unfold Machine.switch at hr
    split at hr
    · cases hr
    · split at hr
      · cases hr
        exact h
      · cases hr
        exact ⟨hok, h.frames, h.behind⟩
  | enterUser rip rsp rflags =>
    have hr : m.enterUser rip rsp rflags = some m' := hr
    unfold Machine.enterUser at hr
    split at hr
    · cases hr
      exact h.setPos (p := .user) rfl rfl rfl rfl rfl rfl h.current
    · cases hr
  | syscall =>
    have hr : m.syscallEntry = some m' := hr
    unfold Machine.syscallEntry at hr
    split at hr
    · simp only at hr
      split at hr
      · cases hr
        exact h.setPos (p := .syscall m.regs.rip m.regs.rflags m.regs.rsp) rfl rfl rfl rfl rfl rfl
          h.current
      · cases hr
    · cases hr
  | sysret =>
    have hr : m.sysret = some m' := hr
    unfold Machine.sysret at hr
    split at hr
    · split at hr
      · cases hr
      · cases hr
        exact h.setPos (p := .user) rfl rfl rfl rfl rfl rfl h.current
    · cases hr

end FrameInv

/-- **Preemption.** If interrupts are taken only while no thread has a frame on the stack of the
gate, then in every state reached the frame of every thread inside `isr_dispatch` is the one that
was built when it was interrupted, and the `iretq` of the thread that runs restores the registers
that it had then. -/
theorem preempted_context_restored {pcb : Reg} {nthread : Nat} (hn : 0 < nthread) {regs : Regs}
    {ctx : Nat → Context} {kstack : Nat → Reg} {ops : List TrapOp}
    (hl : Run.Legal trapStep (fun m op => TrapOk m op ∧ FrameFree m op)
      (trapInit pcb nthread regs ctx kstack) ops)
    {m : Machine} (hr : Run.run trapStep (trapInit pcb nthread regs ctx kstack) ops = some m) :
    (∀ t < m.nthread, ∀ k, (m.pos t).ist = some k →
      Regs.popped (read m.mem (frameBase k) 22) = some (m.interrupted t)) ∧
    ∀ m', trapStep m .iret = some m' → m'.regs = m.interrupted m.current := by
  have h : FrameInv m := Run.run_keeps (fun m op m' hi hok hs => hi.step hok.1 hok.2 hs)
    ⟨hn, (fun _ _ _ hk => by cases hk), rfl⟩ hl hr
  have hframes : ∀ t < m.nthread, ∀ k, (m.pos t).ist = some k →
      Regs.popped (read m.mem (frameBase k) 22) = some (m.interrupted t) := fun t ht k hk => by
    obtain ⟨rfl, hp⟩ := h.frames t ht k hk
    exact hp
  refine ⟨hframes, fun m' hs => ?_⟩
  have hs : m.iret = some m' := hs
  unfold Machine.iret at hs
  split at hs
  · next k i hpos =>
    obtain ⟨r, hp, rfl⟩ := Option.map_eq_some_iff.1 hs
    rw [hframes m.current h.current k (by rw [hpos]; rfl)] at hp
    cases hp
    rfl
  · cases hs

/-- Kernel code at `rip` that can be interrupted. -/
def kernelRegs (rip : Reg) : Regs :=
  { r15 := 0, r14 := 0, r13 := 0, r12 := 0, r11 := 0, r10 := 0, r9 := 0, r8 := 0, rdi := 0, rsi := 0
    rbp := 0, rbx := 0, rdx := 0, rcx := 0, rax := 0, rip, cs := 0x08, rflags := 0x202
    rsp := 0xFFFFA00000005000, ss := 0x10 }

/-- Two kernel threads, at `0x1000` and at `0x2000`. -/
def twoThreads : Machine :=
  trapInit 0xFFFF800000001000 2 (kernelRegs 0x1000) (fun _ => Machine.saved (kernelRegs 0x2000))
    fun _ => 0xFFFFA00000005000

/-- The second thread is preempted while the first one is inside a system call. -/
theorem preempted_context_restored_syscall : ∃ m m', Run.run trapStep twoThreads
      [.enterUser 0x400000 0x7000 0x202, .interrupt 32 0, .iret, .syscall, .switch 1,
        .interrupt 32 0, .store (frameBase 4 - 8) 7, .switch 0, .switch 1] = some m ∧
    trapStep m .iret = some m' ∧ m'.regs = m.interrupted 1 := by
  obtain ⟨m, hm, hcur, hret⟩ : ∃ m, Run.run trapStep twoThreads
      [.enterUser 0x400000 0x7000 0x202, .interrupt 32 0, .iret, .syscall, .switch 1,
        .interrupt 32 0, .store (frameBase 4 - 8) 7, .switch 0, .switch 1] = some m ∧
      m.current = 1 ∧ (trapStep m .iret).isSome := by decide +kernel
  obtain ⟨m', hm'⟩ := Option.isSome_iff_exists.1 hret
  refine ⟨m, m', hm, hm', ?_⟩
  rw [← hcur]
  exact (preempted_context_restored (by decide) (by decide +kernel) hm).2 m' hm'

/-- The clock preempts the first thread; the second one goes to user mode, uses the FPU (`#NM`) and
yields in a system call. The first thread goes on in the place of the second one. -/
def preemptThenFpu : List TrapOp :=
  [.interrupt 32 0, .switch 1, .enterUser 0x400000 0x7000 0x202, .interrupt 7 0, .iret, .syscall,
    .switch 0, .iret]

theorem preempted_context_lost :
    Run.Legal trapStep TrapOk twoThreads preemptThenFpu ∧
    ∃ m, Run.run trapStep twoThreads preemptThenFpu = some m ∧
      m.current = 0 ∧ (m.interrupted 0).rip = 0x1000 ∧ m.regs.rip = 0x400000 := by
  decide +kernel

end Aegis
