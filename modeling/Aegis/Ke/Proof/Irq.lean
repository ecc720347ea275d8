import Aegis.Ke.Irq
import Aegis.Ke.Proof.TickLocks

/-!
# Acknowledged ticks

`IrqInv`: IRQ0 is in service exactly while the thread that runs is in `isr_dispatch`, and no other
thread is. It is kept as long as `ke_on_tick` finds no reason to switch, and then returns to the
thread that it interrupted.
-/

namespace Aegis

open Function

namespace Irq

variable {s s' : Irq}
variable {c : Nat} {ke : Kernel}

/-- The invariant (module doc), and how many interrupts have been acknowledged. -/
structure IrqInv (s : Irq) : Prop where
  current : ∀ t, s.inIsr t = true → s.ke.current = some t
  service : s.inService = true ↔ s.InIsr
  count : s.taken = s.acked + if s.inService then 1 else 0

theorem irqInv_init : init.IrqInv where
  current t h := by cases h
  service := by decide
  count := rfl

theorem IrqInv.acknowledged (h : s.IrqInv) : s.Acknowledged := by
  intro _ hout _
  have hs : s.inService = false := by
    cases hs : s.inService
    · rfl
    · exact absurd (h.service.1 hs) hout
  refine ⟨hs, ?_⟩
  have hc := h.count
  rw [hs] at hc
  exact hc.symm

theorem IrqInv.all_out (h : s.IrqInv) (hout : ¬ s.InIsr) (t : Nat) : s.inIsr t = false := by
  cases ht : s.inIsr t
  · rfl
  · exact absurd ⟨t, h.current t ht, ht⟩ hout

theorem switched_of_eq (h : ke.current = s.ke.current) : s.switched ke = { s with ke } := if_pos h

theorem switched_view (s : Irq) (ke : Kernel) :
    (s.switched ke).ke = ke ∧ (s.switched ke).inService = s.inService ∧
      (s.switched ke).taken = s.taken ∧ (s.switched ke).acked = s.acked ∧
      (s.switched ke).inIsr = s.inIsr := by
  unfold switched
  split_ifs <;> exact ⟨rfl, rfl, rfl, rfl, rfl⟩

theorem inIsr_iff (hc : s.ke.current = some c) : s.InIsr ↔ s.inIsr c = true := by
  constructor
  · rintro ⟨c', hc', hi⟩
    rw [hc] at hc'
    cases hc'
    exact hi
  · intro hi
    exact ⟨c, hc, hi⟩

theorem tick_inv (h : s.IrqInv) (hc : s.ke.current = some c) (hserv : s.inService = false)
    (hke : ke.current = s.ke.current) : ((s.take c).switched ke).IrqInv := by
  have hcur : ke.current = some c := hke.trans hc
  rw [switched_of_eq (s := s.take c) hke]
  exact {
    current := fun t ht => by
      by_cases he : t = c
      · rw [he]
        exact hcur
      · have ht' : s.inIsr t = true := (update_of_ne he ..).symm.trans ht
        exact absurd (Option.some.inj ((h.current t ht').symm.trans hc)) he
    service := ⟨fun _ => ⟨c, hcur, update_self ..⟩, fun _ => rfl⟩
    count := by
      have hcount := h.count
      rw [hserv] at hcount
      show s.taken + 1 = s.acked + 1
      rw [hcount]
      rfl }

theorem finish_inv (h : s.IrqInv) (hc : s.ke.current = some c) (hi : s.inIsr c = true) :
    (s.eoi c).IrqInv := by
  have hserv := h.service.2 ((inIsr_iff hc).2 hi)
  have hout : ∀ t, (s.eoi c).inIsr t = false := by
    intro t
    by_cases he : t = c
    · rw [he]
      exact update_self ..
    · refine (update_of_ne he ..).trans ?_
      cases ht : s.inIsr t
      · rfl
      · exact absurd (Option.some.inj ((h.current t ht).symm.trans hc)) he
  exact {
    current := fun t ht => absurd ht (by simp [hout t])
    service := by
      constructor
      · intro hs
        cases hs
      · rintro ⟨t, -, ht⟩
        exact absurd ht (by simp [hout t])
    count := by
      have hcount := h.count
      rw [hserv] at hcount
      exact hcount }

theorem call_inv (h : s.IrqInv) (hke : s.InIsr → ke.current = s.ke.current) :
    (s.switched ke).IrqInv := by
  by_cases hin : s.InIsr
  · rw [switched_of_eq (hke hin)]
    have hcur := hke hin
    exact {
      current := fun t ht => hcur.trans (h.current t ht)
      service := by
        rw [h.service]
        simp only [InIsr, hcur]
      count := h.count }
  · obtain ⟨h1, h2, h3, h4, h5⟩ := s.switched_view ke
    have hout := h.all_out hin
    exact {
      current := fun t ht => by
        rw [h5, hout t] at ht
        cases ht
      service := by
        rw [h2, h.service]
        refine ⟨fun hi => absurd hi hin, fun ⟨t, _, ht⟩ => ?_⟩
        rw [h5, hout t] at ht
        cases ht
      count := by
        rw [h2, h3, h4]
        exact h.count }

/-- What a thread in `isr_dispatch` does before its end switches to no other. -/
theorem call_current {op : KeOp} (hop : op.isResume = true)
    (hk : ∀ c ∈ s.ke.current, (s.ke.thread c).killPending = false) (hs : keStep s.ke op = some ke) :
    ke.current = s.ke.current := by
  cases op with
  | resume =>
    obtain ⟨⟨r, ke'⟩, hr, rfl⟩ := Option.map_eq_some_iff.1 hs
    have hr := Outcome.get?_eq_some.1 hr
    cases hc : s.ke.current with
    | none =>
      unfold Kernel.resume at hr
      rw [hc] at hr
      cases hr
      exact hc
    | some c => exact (Kernel.resume_goes_on hc (hk c hc) hr).1
  | _ => cases hop

theorem irqStep_inv {a : IrqOp} (h : s.IrqInv) (hr : TickStays s a)
    (hs : irqStep s a = some s') : s'.IrqInv := by
  cases a with
  | tick =>
    simp only [irqStep] at hs
    split at hs
    · cases hs
    · rename_i c hc
      split_ifs at hs with hon
      obtain ⟨ke, hke, rfl⟩ := Option.map_eq_some_iff.1 hs
      obtain ⟨ke', hke', hcur⟩ := Kernel.keOnTick_quiet hr
      rw [hke'] at hke
      cases hke
      exact tick_inv h hc hon.2 hcur
  | finish =>
    simp only [irqStep] at hs
    split at hs
    · cases hs
    · rename_i c hc
      split_ifs at hs with hin
      cases hs
      exact finish_inv h hc hin.1
  | call op =>
    simp only [irqStep] at hs
    split_ifs at hs with hop
    obtain ⟨ke, hke, rfl⟩ := Option.map_eq_some_iff.1 hs
    exact call_inv h fun hin => call_current (hop.2.2 hin) (hr hin) hke
  | setIf b =>
    simp only [irqStep] at hs
    split_ifs at hs
    cases hs
    exact ⟨h.current, h.service, h.count⟩

end Irq

/-- As long as no tick has a reason to switch threads, a thread outside `isr_dispatch` with interrupts
on finds every timer interrupt acknowledged. -/
theorem ticks_acknowledged {ops : List IrqOp} {s : Irq}
    (hl : Run.Legal irqStep TickStays .init ops) (hr : Run.run irqStep .init ops = some s) :
    s.Acknowledged :=
  (Run.run_keeps (fun _ _ _ => Irq.irqStep_inv) Irq.irqInv_init hl hr).acknowledged

/-- Two threads of one priority; the first tick of the quantum returns to the one that runs. -/
theorem ticks_acknowledged_quantum : ∃ s, Run.run irqStep .init
    [.call (.createThread 0 8 false), .call (.createThread 0 8 false), .call .yield,
      .call .resume, .tick, .finish] = some s ∧ s.taken = 1 ∧ s.intr = true ∧ s.Acknowledged := by
  have hl : Run.Legal irqStep TickStays .init
      [.call (.createThread 0 8 false), .call (.createThread 0 8 false), .call .yield,
        .call .resume, .tick, .finish] := by decide +kernel
  obtain ⟨s, hs, h1, h2⟩ : ∃ s, Run.run irqStep .init
      [.call (.createThread 0 8 false), .call (.createThread 0 8 false), .call .yield,
        .call .resume, .tick, .finish] = some s ∧ s.taken = 1 ∧ s.intr = true := by decide +kernel
  exact ⟨s, hs, h1, h2, ticks_acknowledged hl hs⟩

/-- The thread that runs makes one of a higher priority; the next tick switches to it, with
interrupts on, and IRQ0 stays in service. -/
theorem tick_not_acknowledged : ∃ s, Run.run irqStep .init
    [.call (.createThread 0 8 false), .call .yield, .call .resume,
      .call (.createThread 0 9 false), .tick] = some s ∧
    s.ke.current = some 2 ∧ s.inIsr 2 = false ∧ s.intr = true ∧ s.inService = true ∧
    ¬ s.Acknowledged := by
  obtain ⟨s, hs, h1, h2, h3, h4⟩ : ∃ s, Run.run irqStep .init
      [.call (.createThread 0 8 false), .call .yield, .call .resume,
        .call (.createThread 0 9 false), .tick] = some s ∧
      s.ke.current = some 2 ∧ s.inIsr 2 = false ∧ s.intr = true ∧ s.inService = true := by
    decide +kernel
  refine ⟨s, hs, h1, h2, h3, h4, fun ha => ?_⟩
  have hout : ¬ s.InIsr := by
    rw [Irq.inIsr_iff h1, h2]
    decide
  have := (ha (by simp [h1]) hout h3).1
  exact absurd (h4.symm.trans this) (by decide)

end Aegis
