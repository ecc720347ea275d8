import Aegis.Ke.Proof.TrapFrame

/-!
# Who has swapped `GS`

The bases of `GS` belong to the CPU and not to the thread: `context_switch` does not save them. A
thread that is switched out inside a system call, or an interrupt from user mode, leaves them swapped,
and `enter_user` expects them not to be.

Once that has happened, the kernel runs with swapped bases for good, and the entries and exits of the
threads that have been launched before still agree with each other. The discipline therefore holds as
long as no thread is launched after a switch of that kind, and the next launch keeps it only then.
-/

namespace Aegis

open WordStack Function

/-- A thread is launched only before one has been switched out inside a system call, or an interrupt
from user mode. -/
def LaunchOk (m : Machine) : TrapOp → Prop
  | .enterUser .. => m.leftInside = false
  | _ => True

instance (m : Machine) (op : TrapOp) : Decidable (LaunchOk m op) := by
  apply TrapOp.casesOn (motive := fun op => Decidable (LaunchOk m op)) op <;> intros <;>
    dsimp only [LaunchOk] <;> infer_instance

/-! ## The invariant -/

/-- The code has come from user mode, or is there. -/
def Pos.entered (p : Pos) : Bool := p.inside || p = .user

/-- How a thread at `p` and the frame on the interrupt stack fit together, while no thread has been
switched out inside. -/
def Pos.Fits (p behind : Pos) : Prop :=
  match p with
  | .kernel => behind.entered = false
  | .isr _ inside => behind.entered = inside
  | .user | .syscall .. => True

/-- `GS` is that of the user. -/
def Machine.Plain (m : Machine) : Prop := m.gsBase = 0 ∧ m.kernelGsBase = m.pcb

/-- `GS` is that of the kernel. -/
def Machine.Swapped (m : Machine) : Prop := m.gsBase = m.pcb ∧ m.kernelGsBase = 0

/-- `GS` is the kernel's inside an entry from user mode and nowhere else, unless `leftInside`. -/
structure GsInv (m : Machine) : Prop where
  pcb : m.pcb ≠ 0
  user : m.regs.User ↔ m.pos m.current = .user
  others : ∀ t ≠ m.current, m.pos t ≠ .user
  ist : ∀ t k, (m.pos t).ist = some k → k = 4
  behind : ∀ k, (m.behind 4).ist = some k → k = 4
  frame : ∃ r, Regs.popped (read m.mem (frameBase 4) 22) = some r ∧
    (r.User ↔ m.behind 4 = .user)
  left : m.leftInside = true → if m.regs.User then m.Plain else m.Swapped
  bases : m.leftInside = false → if (m.pos m.current).inside then m.Swapped else m.Plain
  outside : m.leftInside = false → ∀ t ≠ m.current, (m.pos t).inside = false
  fits : m.leftInside = false → (m.pos m.current).Fits (m.behind 4)

theorem Machine.Plain.swap {m : Machine} (h : m.Plain) : m.swapgs.Swapped := ⟨h.2, h.1⟩

theorem Machine.Swapped.swap {m : Machine} (h : m.Swapped) : m.swapgs.Plain := ⟨h.2, h.1⟩

theorem update_pos {P : Pos → Prop} {f : Nat → Pos} {c : Nat} (p : Pos) (h : ∀ t ≠ c, P (f t)) :
    ∀ t ≠ c, P (update f c p t) := fun t ht => by
  rw [update_of_ne ht]
  exact h t ht

namespace GsInv

variable {m m' : Machine}
variable {rflags rip rsp : Reg}

section
variable (h : GsInv m)
include h

theorem swapped (hu : ¬ m.regs.User) (hi : m.leftInside = true ∨ (m.pos m.current).inside = true) :
    m.Swapped := by
  cases hl : m.leftInside with
  | true =>
    have := h.left hl
    rwa [if_neg hu] at this
  | false =>
    rw [hl] at hi
    have := h.bases hl
    rwa [if_pos (hi.resolve_left (by simp))] at this

theorem plain_of_user (hu : m.regs.User) : m.Plain := by
  cases hl : m.leftInside with
  | true =>
    have := h.left hl
    rwa [if_pos hu] at this
  | false =>
    have := h.bases hl
    rwa [h.user.1 hu, if_neg (by simp)] at this

theorem plain (hl : m.leftInside = false) (hi : (m.pos m.current).inside = false) : m.Plain := by
  have := h.bases hl
  rwa [if_neg (by simp [hi])] at this

theorem interrupt {vector : Nat} {error : Reg} (hr : m.interrupt vector error = some m') :
    GsInv m' := by
  unfold Machine.interrupt at hr
  split at hr
  · cases hr
  · split at hr
    · cases hr
    · next hpanic =>
      cases hr
      have he := enterIsr_entered m (istOf_of_not_panics hpanic) error
      generalize m.enterIsr vector error = n at he
      have hpos : n.pos n.current =
          .isr 4 ((m.pos m.current).inside || m.pos m.current = .user) := by
        rw [he.pos, he.current, update_self]
      -- the bases are swapped by the entry, or were before
      have hsw : m.regs.User ∨ m.Swapped → n.Swapped := by
        rintro (hu | hs)
        · have hb := he.bases
          rw [if_pos hu] at hb
          exact ⟨hb.1.trans ((h.plain_of_user hu).2.trans he.pcb.symm),
            hb.2.trans (h.plain_of_user hu).1⟩
        · have hu : ¬ m.regs.User := fun hu =>
            h.pcb (hs.1.symm.trans (h.plain_of_user hu).1)
          have hb := he.bases
          rw [if_neg hu] at hb
          exact ⟨hb.1.trans (hs.1.trans he.pcb.symm), hb.2.trans hs.2⟩
      refine ⟨by rw [he.pcb]; exact h.pcb, ?_, ?_, fun t k hk => ?_, fun k hk => ?_, ?_, fun hl => ?_,
        fun hl => ?_, fun hl => ?_, fun hl => ?_⟩
      · simp [he.regs, hpos]
      · rw [he.pos, he.current]
        exact update_pos (P := (· ≠ .user)) _ h.others
      · rw [he.pos] at hk
        by_cases ht : t = m.current
        · subst ht
          rw [update_self] at hk
          exact (Option.some.inj hk).symm
        · rw [update_of_ne ht] at hk
          exact h.ist t k hk
      · rw [he.behind, update_self] at hk
        exact h.ist m.current k hk
      · refine ⟨m.regs, he.frame, ?_⟩
        rw [he.behind, update_self]
        exact h.user
      · rw [if_neg he.regs]
        rw [he.left] at hl
        by_cases hu : m.regs.User
        · exact hsw (.inl hu)
        · exact hsw (.inr (h.swapped hu (.inl hl)))
      · rw [he.left] at hl
        rw [hpos]
        by_cases hu : m.regs.User
        · rw [if_pos (by simp [h.user.1 hu])]
          exact hsw (.inl hu)
        · have hnu : m.pos m.current ≠ .user := fun he => hu (h.user.2 he)
          by_cases hi : (m.pos m.current).inside = true
          · rw [if_pos (by simp [hi])]
            exact hsw (.inr (h.swapped hu (.inr hi)))
          · rw [if_neg (by simp [hi, hnu])]
            have hb := he.bases
            rw [if_neg hu] at hb
            have hp := h.plain hl (by simpa using hi)
            exact ⟨hb.1.trans hp.1, hb.2.trans (hp.2.trans he.pcb.symm)⟩
      · rw [he.left] at hl
        rw [he.pos, he.current]
        exact update_pos (P := fun p => p.inside = false) _ (h.outside hl)
      · rw [hpos, he.behind, update_self]
        rfl

theorem move {n : Machine} {p : Pos} (hpos : n.pos = update m.pos m.current p)
    (hsame : n.current = m.current ∧ n.behind = m.behind ∧ n.mem = m.mem ∧ n.pcb = m.pcb ∧
      n.leftInside = m.leftInside) (huser : n.regs.User ↔ p = .user)
    (hist : ∀ k, p.ist = some k → k = 4)
    (hleft : m.leftInside = true → if n.regs.User then n.Plain else n.Swapped)
    (hbases : m.leftInside = false → if p.inside then n.Swapped else n.Plain)
    (hfits : m.leftInside = false → p.Fits (m.behind 4)) : GsInv n := by
  obtain ⟨hc, hb, hm, hp, hl⟩ := hsame
  have hcur : n.pos n.current = p := by rw [hpos, hc, update_self]
  refine ⟨by rw [hp]; exact h.pcb, by rw [hcur]; exact huser, ?_, fun t k hk => ?_, ?_, ?_, ?_, ?_, ?_, ?_⟩
  · rw [hpos, hc]
    exact update_pos (P := (· ≠ .user)) _ h.others
  · rw [hpos] at hk
    by_cases ht : t = m.current
    · subst ht
      rw [update_self] at hk
      exact hist k hk
    · rw [update_of_ne ht] at hk
      exact h.ist t k hk
  · rw [hb]
    exact h.behind
  · rw [hb, hm]
    exact h.frame
  · rw [hl]
    exact hleft
  · rw [hl, hcur]
    exact hbases
  · rw [hl, hpos, hc]
    exact fun hl => update_pos (P := fun p => p.inside = false) _ (h.outside hl)
  · rw [hl, hcur, hb]
    exact hfits

theorem iret (hr : m.iret = some m') : GsInv m' := by
  unfold Machine.iret at hr
  split at hr
  · next k i hpos =>
    obtain rfl : k = 4 := h.ist m.current k (by rw [hpos]; rfl)
    obtain ⟨r, hp, hru⟩ := h.frame
    rw [hp, Option.map_some] at hr
    cases hr
    have hnu : ¬ m.regs.User := fun hu => by
      rw [h.user.1 hu] at hpos
      cases hpos
    have hfit : m.leftInside = false → (m.behind 4).entered = i := fun hl => by
      have := h.fits hl
      rwa [hpos] at this
    -- where the thread goes back to fits the frame that it came from
    have hself : (m.behind 4).Fits (m.behind 4) := by
      cases m.behind 4 <;> simp [Pos.Fits, Pos.entered]
    by_cases hu : r.User
    · have hb := hru.1 hu
      have hs : m.Swapped := by
        refine h.swapped hnu ?_
        cases hl : m.leftInside with
        | true => exact .inl rfl
        | false =>
          right
          rw [hpos, Pos.inside_isr, ← hfit hl, hb]
          rfl
      rw [if_pos hu]
      refine h.move rfl ⟨rfl, rfl, rfl, rfl, rfl⟩ hru h.behind (fun _ => ?_) (fun _ => ?_) fun _ => hself
      · rw [if_pos hu]
        exact hs.swap
      · rw [hb, if_neg (by simp)]
        exact hs.swap
    · have hb : m.behind 4 ≠ .user := fun hb => hu (hru.2 hb)
      rw [if_neg hu]
      refine h.move rfl ⟨rfl, rfl, rfl, rfl, rfl⟩ hru h.behind (fun hl => ?_) (fun hl => ?_)
        fun _ => hself
      · rw [if_neg hu]
        exact h.swapped hnu (.inl hl)
      · have hent : (m.behind 4).inside = i := by simpa [Pos.entered, hb] using hfit hl
        have hbases := h.bases hl
        rw [hpos, Pos.inside_isr] at hbases
        rw [hent]
        exact hbases
  · cases hr

theorem switch {next : Nat} (hr : m.switch next = some m') : GsInv m' := by
  unfold Machine.switch at hr
  split at hr
  · cases hr
  · next hnu =>
    split at hr
    · cases hr
      exact h
    · next hne =>
      cases hr
      have hu : ¬ m.regs.User := fun hu => hnu (h.user.1 hu)
      have hmem : ∀ {P : Pos → Prop}, P (m.pos m.current) → (∀ t ≠ m.current, P (m.pos t)) →
          ∀ t, P (m.pos t) := fun hc ho t => by
        by_cases ht : t = m.current
        · rw [ht]
          exact hc
        · exact ho t ht
      refine ⟨h.pcb, ?_, fun t _ => hmem (P := (· ≠ .user)) hnu h.others t, h.ist, h.behind, h.frame,
        fun hl => ?_, fun hl => ?_, fun hl t _ => ?_, fun hl => ?_⟩
      · exact ⟨fun hu' => absurd hu' hu, fun hp => absurd hp (h.others next hne)⟩
      · have hu' : ¬ (m.contextSwitch next).regs.User := hu
        rw [if_neg hu']
        exact h.swapped hu (by simpa [Machine.contextSwitch] using hl)
      · obtain ⟨hl, hi⟩ : m.leftInside = false ∧ (m.pos m.current).inside = false := by
          simpa [Machine.contextSwitch] using hl
        have hp := h.plain hl hi
        have hn : (m.pos next).inside = false := h.outside hl next hne
        rw [show ((m.contextSwitch next).pos (m.contextSwitch next).current).inside = false from hn]
        exact hp
      · obtain ⟨hl, hi⟩ : m.leftInside = false ∧ (m.pos m.current).inside = false := by
          simpa [Machine.contextSwitch] using hl
        exact hmem (P := fun p => p.inside = false) hi (h.outside hl) t
      · obtain ⟨hl, hi⟩ : m.leftInside = false ∧ (m.pos m.current).inside = false := by
          simpa [Machine.contextSwitch] using hl
        have hb : (m.behind 4).entered = false := by
          have hf := h.fits hl
          cases hc : m.pos m.current with
          | kernel => rwa [hc] at hf
          | user => exact absurd hc hnu
          | syscall => rw [hc] at hi; cases hi
          | isr k i =>
            rw [hc] at hi hf
            exact hf.trans hi
        have hn := h.outside hl next hne
        show (m.pos next).Fits (m.behind 4)
        cases hc : m.pos next with
        | kernel => exact hb
        | user => trivial
        | syscall => trivial
        | isr k i =>
          rw [hc] at hn
          exact hb.trans hn.symm

theorem enterUser (hl : m.leftInside = false) (hr : m.enterUser rip rsp rflags = some m') :
    GsInv m' := by
  unfold Machine.enterUser at hr
  split at hr
  · next hpos =>
    cases hr
    refine h.move (p := .user) rfl ⟨rfl, rfl, rfl, rfl, rfl⟩ ?_ (fun k hk => by cases hk)
      (fun hl' => ?_) (fun _ => ?_) fun _ => trivial
    · simp [Regs.User]
    · rw [hl] at hl'
      cases hl'
    · rw [if_neg (by simp)]
      exact h.plain hl (by rw [hpos]; rfl)
  · cases hr

theorem syscall (hr : m.syscallEntry = some m') : GsInv m' := by
  unfold Machine.syscallEntry at hr
  split at hr
  · next hpos =>
    simp only at hr
    split at hr
    · cases hr
      have hs := (h.plain_of_user (h.user.2 hpos)).swap
      refine h.move (p := .syscall m.regs.rip m.regs.rflags m.regs.rsp) rfl
        ⟨rfl, rfl, rfl, rfl, rfl⟩ ?_ (fun k hk => by cases hk) (fun _ => ?_) (fun _ => ?_)
        fun _ => trivial
      · simp [Regs.User]
      · rw [if_neg (by simp [Regs.User])]
        exact hs
      · rw [if_pos (by simp)]
        exact hs
    · cases hr
  · cases hr

theorem sysret (hr : m.sysret = some m') : GsInv m' := by
  unfold Machine.sysret at hr
  split at hr
  · next hpos =>
    split at hr
    · cases hr
    · cases hr
      have hnu : ¬ m.regs.User := fun hu => by
        rw [h.user.1 hu] at hpos
        cases hpos
      have hp := (h.swapped hnu (.inr (by rw [hpos]; rfl))).swap
      refine h.move (p := .user) rfl ⟨rfl, rfl, rfl, rfl, rfl⟩ ?_ (fun k hk => by cases hk)
        (fun _ => ?_) (fun _ => ?_) fun _ => trivial
      · simp [Regs.User]
      · rw [if_pos (by simp [Regs.User])]
        exact hp
      · rw [if_neg (by simp)]
        exact hp
  · cases hr

theorem step {op : TrapOp} (hok : TrapOk m op) (hlaunch : LaunchOk m op)
    (hr : trapStep m op = some m') : GsInv m' := by
  cases op with
  | work r =>
    cases hr
    have hu : r.User ↔ m.regs.User := by rw [Regs.User, hok.1, Regs.User]
    refine ⟨h.pcb, hu.trans h.user, h.others, h.ist, h.behind, h.frame, fun hl => ?_, h.bases, h.outside,
      h.fits⟩
    have := h.left hl
    simp only [hu]
    exact this
  | store a w =>
    cases hr
    refine ⟨h.pcb, h.user, h.others, h.ist, h.behind, ?_, h.left, h.bases, h.outside, h.fits⟩
    obtain ⟨r, hp, hru⟩ := h.frame
    exact ⟨r, (congrArg Regs.popped (read_frame_store m.mem hok.2 w)).trans hp, hru⟩
  | interrupt vector error => exact h.interrupt hr
  | iret => exact h.iret hr
  | switch next => exact h.switch hr
  | enterUser rip rsp rflags => exact h.enterUser hlaunch hr
  | syscall => exact h.syscall hr
  | sysret => exact h.sysret hr

end

end GsInv

end Aegis
