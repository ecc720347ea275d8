import Aegis.Mm.CpuMem

/-!
# Memory in use is not free

Every frame has an owner: the PMM, the kernel (all page tables and the stack of IST4), or a thread
whose stack it backs. `Owned s own` says that the state agrees with it. Frames change hands when
they are given out and when a stack is unmapped; under `ExitsOnIst` no table ever comes back.
-/

namespace Aegis

open Function

namespace CpuMem

variable {f p r t : Nat} {o : Owner} {frames l tables : List Nat}

/-- Who a frame belongs to. -/
inductive Owner
  | pmm
  | kernel
  | stack (t : Nat)

variable {s s' : CpuMem} {own : Nat → Owner}

/-- The frames of `l` go to `o`. -/
def give (own : Nat → Owner) (l : List Nat) (o : Owner) : Nat → Owner :=
  fun f => if f ∈ l then o else own f

theorem give_of_mem (h : f ∈ l) : give own l o f = o :=
  if_pos h

theorem give_of_not_mem (h : f ∉ l) : give own l o f = own f := if_neg h

/-- Every frame has one owner. -/
structure Owned (s : CpuMem) (own : Nat → Owner) : Prop where
  free : ∀ f, s.free f = true ↔ own f = .pmm
  kernel : ∀ f ∈ s.kernelTables, own f = .kernel
  ist : ∀ f ∈ s.ist, own f = .kernel
  root : ∀ p r, s.root p = some r → own r = .kernel
  tables : ∀ r, ∀ f ∈ s.tables r, own f = .kernel
  cr3 : own s.cr3 = .kernel
  kstack : ∀ t, ∀ f ∈ s.kstack t, own f = .stack t

/-- Every reachable state. -/
structure CpuInv (s : CpuMem) : Prop where
  owned : ∃ own, Owned s own
  istMapped : s.ist ≠ []
  count : ∀ p, s.threadCount p < 2 ^ 32
  current : ∀ t ∈ s.current, t < s.nthread
  /-- A thread has its stack until it exits. -/
  mapped : ∀ t < s.nthread, s.terminated t = false →
    s.kstack t ≠ [] ∨ (s.current = some t ∧ s.phase = .unmapped)
  running : ∀ t ∈ s.current, s.phase = .code → s.terminated t = false
  /-- It exits on the stack of IST4. -/
  exiting : ∀ t ∈ s.current, s.phase ≠ .code → s.onIst t = true

/-! ## What the CPU uses -/

theorem Owned.not_free (h : Owned s own) (hf : own f ≠ .pmm) : s.free f = false := by
  cases hs : s.free f
  · rfl
  · exact absurd ((h.free f).1 hs) hf

theorem CpuInv.inUse (h : s.CpuInv) : s.InUse := by
  obtain ⟨own, ho⟩ := h.owned
  have hstack : ∀ t ∈ s.current, s.stackOf t ≠ [] := by
    intro t ht
    unfold stackOf
    split_ifs with hist
    · exact h.istMapped
    · have hcode : s.phase = .code := by
        by_contra hp
        exact hist (h.exiting t ht hp)
      obtain hk | ⟨-, hp⟩ := h.mapped t (h.current t ht) (h.running t ht hcode)
      · exact hk
      · exact absurd (hp.symm.trans hcode) (by decide)
  refine ⟨fun f hf => ho.not_free ?_, hstack, fun t ht f hf => ho.not_free ?_⟩
  · have hk : own f = .kernel := by
      obtain rfl | hf := List.mem_cons.1 hf
      · exact ho.cr3
      obtain hf | hf := List.mem_append.1 hf
      · exact ho.tables s.cr3 f hf
      · exact ho.kernel f hf
    rw [hk]
    nofun
  · unfold stackOf at hf
    split_ifs at hf
    · rw [ho.ist f hf]
      nofun
    · rw [ho.kstack t f hf]
      nofun

/-! ## Frames that change hands -/

theorem pmmAlloc_free (s : CpuMem) (l : List Nat) (f : Nat) :
    (s.pmmAlloc l).free f = true ↔ s.free f = true ∧ f ∉ l := by
  simp [pmmAlloc]

theorem pmmFree_free (s : CpuMem) (l : List Nat) (f : Nat) :
    (s.pmmFree l).free f = true ↔ s.free f = true ∨ f ∈ l := by
  simp [pmmFree]

section
variable (h : Owned s own)
include h

theorem Owned.pmmAlloc (hl : s.Gives l) (ho : o ≠ .pmm) : Owned (s.pmmAlloc l) (give own l o) := by
  have hkeep : ∀ f o', own f = o' → o' ≠ .pmm → give own l o f = o' := by
    intro f o' hf ho'
    rw [give_of_not_mem fun hm => ho' (hf.symm.trans ((h.free f).1 (hl.2 f hm))), hf]
  exact {
    free := fun f => by
      rw [pmmAlloc_free, h.free]
      by_cases hf : f ∈ l
      · simp [give_of_mem hf, hf, ho]
      · simp [give_of_not_mem hf, hf]
    kernel := fun f hf => hkeep f _ (h.kernel f hf) (by nofun)
    ist := fun f hf => hkeep f _ (h.ist f hf) (by nofun)
    root := fun p r hr => hkeep r _ (h.root p r hr) (by nofun)
    tables := fun r f hf => hkeep f _ (h.tables r f hf) (by nofun)
    cr3 := hkeep _ _ h.cr3 (by nofun)
    kstack := fun t f hf => hkeep f _ (h.kstack t f hf) (by nofun) }

theorem Owned.aspaceInit (hr : s.Gives [r]) : Owned (s.aspaceInit r) (give own [r] .kernel) :=
  have hg := h.pmmAlloc hr (o := .kernel) (by nofun)
  { hg with
    root := fun p r' hr' => by
      have hr' : update s.root s.nprocess (some r) p = some r' := hr'
      by_cases hp : p = s.nprocess
      · rw [hp, update_self] at hr'
        cases hr'
        exact give_of_mem (List.mem_singleton_self r)
      · rw [update_of_ne hp] at hr'
        exact hg.root p r' hr'
    tables := fun r' f hf => by
      have hf : f ∈ update s.tables r [] r' := hf
      by_cases he : r' = r
      · rw [he, update_self] at hf
        cases hf
      · rw [update_of_ne he] at hf
        exact hg.tables r' f hf }

theorem Owned.addTable (hf : s.Gives [f]) : Owned (s.addTable r f) (give own [f] .kernel) :=
  have hg := h.pmmAlloc hf (o := .kernel) (by nofun)
  { hg with
    tables := fun r' f' hf' => by
      have hf' : f' ∈ update s.tables r (f :: s.tables r) r' := hf'
      by_cases he : r' = r
      · rw [he, update_self] at hf'
        obtain rfl | hf' := List.mem_cons.1 hf'
        · exact give_of_mem (List.mem_singleton_self f')
        · exact hg.tables r f' hf'
      · rw [update_of_ne he] at hf'
        exact hg.tables r' f' hf' }

theorem Owned.createThread (hl : s.Gives (frames ++ tables)) :
    ∃ own', Owned (s.createThread p frames tables) own' := by
  obtain ⟨hnd, hfree⟩ := hl
  obtain ⟨hnd1, hnd2, hdisj⟩ := List.nodup_append'.1 hnd
  have h1 := h.pmmAlloc (l := frames) (o := .stack s.nthread)
    ⟨hnd1, fun f hf => hfree f (List.mem_append_left _ hf)⟩ (by nofun)
  have h2 := h1.pmmAlloc (l := tables) (o := .kernel) ⟨hnd2, fun f hf => ?_⟩ (by nofun)
  swap
  · rw [pmmAlloc_free]
    exact ⟨hfree f (List.mem_append_right _ hf), fun hf' => hdisj hf' hf⟩
  refine ⟨_, { h2 with free := fun f => ?_, kernel := fun f hf => ?_, kstack := fun t f hf => ?_ }⟩
  · rw [← h2.free]
    show (s.pmmAlloc (frames ++ tables)).free f = true ↔ _
    simp only [pmmAlloc_free, List.mem_append, not_or, and_assoc]
  · obtain hf | hf := List.mem_append.1 hf
    · exact give_of_mem hf
    · exact h2.kernel f hf
  · have hf : f ∈ update s.kstack s.nthread frames t := hf
    by_cases ht : t = s.nthread
    · subst ht
      rw [update_self] at hf
      rw [give_of_not_mem (fun hf' => hdisj hf hf'), give_of_mem hf]
    · rw [update_of_ne ht] at hf
      exact h2.kstack t f hf

/-- A stack that is given back was that of the thread alone. -/
theorem Owned.unmapKstack (t : Nat) : Owned (s.unmapKstack t) (give own (s.kstack t) .pmm) := by
  have hkeep : ∀ f o, own f = o → o ≠ .stack t → give own (s.kstack t) .pmm f = o := by
    intro f o hf ho
    rw [give_of_not_mem, hf]
    intro hm
    exact ho (hf.symm.trans (h.kstack t f hm))
  exact {
    free := fun f => by
      show (s.pmmFree (s.kstack t)).free f = true ↔ _
      rw [pmmFree_free, h.free]
      by_cases hf : f ∈ s.kstack t
      · simp [give_of_mem hf, hf]
      · simp [give_of_not_mem hf, hf]
    kernel := fun f hf => hkeep f _ (h.kernel f hf) (by nofun)
    ist := fun f hf => hkeep f _ (h.ist f hf) (by nofun)
    root := fun p r hr => hkeep r _ (h.root p r hr) (by nofun)
    tables := fun r f hf => hkeep f _ (h.tables r f hf) (by nofun)
    cr3 := hkeep _ _ h.cr3 (by nofun)
    kstack := fun u f hf => by
      have hf : f ∈ update s.kstack t [] u := hf
      by_cases hu : u = t
      · rw [hu, update_self] at hf
        cases hf
      · rw [update_of_ne hu] at hf
        exact hkeep f _ (h.kstack u f hf) (fun he => hu (Owner.stack.inj he)) }

theorem Owned.switchTo (n : Nat) : Owned (s.switchTo n) own :=
  { h with
    cr3 := by
      show own ((s.root (s.process n)).getD s.cr3) = .kernel
      cases hr : s.root (s.process n) with
      | none => exact h.cr3
      | some r => exact h.root _ r hr }

end

/-! ## The steps -/

section
variable (h : s.CpuInv)
include h

theorem createThread_inv (hlen : frames.length = 4) (hl : s.Gives (frames ++ tables)) :
    (s.createThread p frames tables).CpuInv := by
  obtain ⟨own, ho⟩ := h.owned
  have hne : frames ≠ [] := by
    rintro rfl
    cases hlen
  exact {
    owned := ho.createThread hl
    istMapped := h.istMapped
    count := fun q => by
      show update s.threadCount p _ q < 2 ^ 32
      by_cases hq : q = p
      · rw [hq, update_self]
        exact Word.wrap_lt 32 _
      · rw [update_of_ne hq]
        exact h.count q
    current := fun t ht => Nat.lt_succ_of_lt (h.current t ht)
    mapped := fun t ht hlive => by
      show update s.kstack s.nthread frames t ≠ [] ∨ _
      by_cases he : t = s.nthread
      · rw [he, update_self]
        exact .inl hne
      · rw [update_of_ne he]
        have ht : t < s.nthread + 1 := ht
        exact h.mapped t (by omega) hlive
    running := h.running
    exiting := h.exiting }

theorem switchTo_inv {n : Nat} (hn : n < s.nthread) (hlive : s.terminated n = false)
    (hphase : s.phase ≠ .unmapped) : (s.switchTo n).CpuInv := by
  obtain ⟨own, ho⟩ := h.owned
  exact {
    owned := ⟨own, ho.switchTo n⟩
    istMapped := h.istMapped
    count := h.count
    current := fun t ht => by cases ht; exact hn
    mapped := fun t ht hl => by
      obtain hk | ⟨-, hp⟩ := h.mapped t ht hl
      · exact .inl hk
      · exact absurd hp hphase
    running := fun t ht _ => by cases ht; exact hlive
    exiting := fun t _ hp => absurd rfl hp }

theorem setIst_inv (ht : s.current = some t) {b : Bool} (hb : s.phase ≠ .code → b = true) :
    { s with onIst := update s.onIst t b }.CpuInv := by
  obtain ⟨own, ho⟩ := h.owned
  exact { h with
    owned := ⟨own, { ho with }⟩
    exiting := fun u hu hp => by
      have hu : s.current = some u := hu
      obtain rfl : t = u := Option.some.inj (ht.symm.trans hu)
      show update s.onIst t b t = true
      rw [update_self]
      exact hb hp }

theorem unmapKstack_inv (ht : s.current = some t) (hist : s.onIst t = true) :
    (s.unmapKstack t).CpuInv := by
  obtain ⟨own, ho⟩ := h.owned
  have hcur : ∀ u, u ∈ (s.unmapKstack t).current → u = t := fun u hu =>
    Option.some.inj (Eq.trans (Eq.symm hu) ht)
  exact {
    owned := ⟨_, ho.unmapKstack t⟩
    istMapped := h.istMapped
    count := h.count
    current := h.current
    mapped := fun u hu hl => by
      by_cases he : u = t
      · rw [he]
        exact .inr ⟨ht, rfl⟩
      · show update s.kstack t [] u ≠ [] ∨ _
        rw [update_of_ne he]
        obtain hk | ⟨hc, -⟩ := h.mapped u hu hl
        · exact .inl hk
        · exact absurd (Option.some.inj (hc.symm.trans ht)) he
    running := fun u _ hp => by cases hp
    exiting := fun u hu _ => by
      rw [hcur u hu]
      exact hist }

theorem leaveProcess_inv (ht : s.current = some t) (hphase : s.phase = .unmapped)
    (hlast : s.threadCount (s.process t) ≠ 1) : (s.leaveProcess t).CpuInv := by
  obtain ⟨own, ho⟩ := h.owned
  have hcount := h.count (s.process t)
  have hne : Word.sub 32 (s.threadCount (s.process t)) 1 ≠ 0 := by
    unfold Word.sub
    omega
  have hist := h.exiting t ht (by rw [hphase]; decide)
  simp only [leaveProcess, if_neg hne]
  exact {
    owned := ⟨own, { ho with }⟩
    istMapped := h.istMapped
    count := fun q => by
      show update s.threadCount _ _ q < 2 ^ 32
      by_cases hq : q = s.process t
      · rw [hq, update_self]
        exact Nat.mod_lt _ (by decide)
      · rw [update_of_ne hq]
        exact h.count q
    current := h.current
    mapped := fun u hu hl => by
      have hl : update s.terminated t true u = false := hl
      by_cases he : u = t
      · rw [he, update_self] at hl
        cases hl
      · rw [update_of_ne he] at hl
        obtain hk | ⟨hc, -⟩ := h.mapped u hu hl
        · exact .inl hk
        · exact absurd (Option.some.inj (hc.symm.trans ht)) he
    running := fun u _ hp => by cases hp
    exiting := fun u hu _ => by
      obtain rfl : u = t := Option.some.inj (Eq.trans (Eq.symm hu) ht)
      exact hist }

theorem cpuStep_inv {a : CpuOp} (hok : ExitsOnIst s a) (hs : cpuStep s a = some s') :
    s'.CpuInv := by
  obtain ⟨own, ho⟩ := h.owned
  cases a with
  | createProcess r =>
    simp only [cpuStep] at hs
    split_ifs at hs with hr
    cases hs
    exact { h with owned := ⟨_, ho.aspaceInit hr⟩ }
  | addTable p f =>
    simp only [cpuStep] at hs
    split at hs
    · cases hs
    · split_ifs at hs with hf
      cases hs
      exact { h with owned := ⟨_, ho.addTable hf⟩ }
  | createThread p frames tables =>
    simp only [cpuStep] at hs
    split_ifs at hs with hl
    cases hs
    exact createThread_inv h hl.1 hl.2
  | switchTo n =>
    simp only [cpuStep] at hs
    split_ifs at hs with hn
    cases hs
    exact switchTo_inv h hn.1 hn.2.1 hn.2.2
  | trap =>
    simp only [cpuStep] at hs
    split at hs
    · cases hs
    · rename_i t ht
      cases hs
      exact setIst_inv h ht fun _ => rfl
  | iret =>
    simp only [cpuStep] at hs
    split at hs
    · cases hs
    · rename_i t ht
      split_ifs at hs with hp
      cases hs
      exact setIst_inv h ht fun hp' => absurd hp hp'
  | unmapKstack =>
    simp only [cpuStep] at hs
    split at hs
    · cases hs
    · rename_i t ht
      split_ifs at hs
      cases hs
      exact unmapKstack_inv h ht (hok t ht)
  | leaveProcess =>
    simp only [cpuStep] at hs
    split at hs
    · cases hs
    · rename_i t ht
      split_ifs at hs with hp
      obtain rfl := Option.some.inj hs
      exact leaveProcess_inv h ht hp (hok t ht)

end

/-! ## Runs -/

theorem boot_inv {free : Nat → Bool} {kernelTables ist : List Nat} {cr3 : Nat}
    (hcr3 : cr3 ∈ kernelTables) (hist : ist ≠ [])
    (hfree : ∀ f ∈ kernelTables ++ ist, free f = false) :
    (boot free kernelTables ist cr3).CpuInv where
  owned := by
    have hown : ∀ f ∈ kernelTables ++ ist, (if free f then Owner.pmm else .kernel) = .kernel := by
      intro f hf
      rw [hfree f hf]
      rfl
    refine ⟨fun f => if free f then .pmm else .kernel, ?_, ?_, ?_, ?_, ?_, ?_, ?_⟩
    · intro f
      show free f = true ↔ _
      cases free f <;> simp
    · exact fun f hf => hown f (List.mem_append_left _ hf)
    · exact fun f hf => hown f (List.mem_append_right _ hf)
    · nofun
    · nofun
    · exact hown cr3 (List.mem_append_left _ hcr3)
    · nofun
  istMapped := hist
  count _ := Nat.two_pow_pos 32
  current := by nofun
  mapped := by nofun
  running := by nofun
  exiting := by nofun

end CpuMem

/-- As long as threads exit on the stack of IST4 and not as the last of their process, the tables
and the stack that the CPU uses are not free. -/
theorem cpu_memory_in_use {free : Nat → Bool} {kernelTables ist : List Nat} {cr3 : Nat}
    {ops : List CpuOp} {s : CpuMem} (hcr3 : cr3 ∈ kernelTables) (hist : ist ≠ [])
    (hfree : ∀ f ∈ kernelTables ++ ist, free f = false)
    (hl : Run.Legal cpuStep ExitsOnIst (.boot free kernelTables ist cr3) ops)
    (hr : Run.run cpuStep (.boot free kernelTables ist cr3) ops = some s) : s.InUse :=
  (Run.run_keeps (fun _ _ _ h => CpuMem.cpuStep_inv h) (CpuMem.boot_inv hcr3 hist hfree) hl hr).inUse

/-- A thread is killed in an exception while another of its process goes on. -/
theorem cpu_memory_in_use_killed : ∃ s, Run.run cpuStep
    (.boot (fun f => decide (2 ≤ f)) [0] [1] 0)
    [.createProcess 2, .createThread 0 [3, 4, 5, 6] [], .createThread 0 [7, 8, 9, 10] [11],
      .switchTo 0, .trap, .unmapKstack, .leaveProcess, .switchTo 1] = some s ∧
    s.free 3 = true ∧ s.current = some 1 ∧ s.InUse := by
  have hl : Run.Legal cpuStep ExitsOnIst (.boot (fun f => decide (2 ≤ f)) [0] [1] 0)
      [.createProcess 2, .createThread 0 [3, 4, 5, 6] [], .createThread 0 [7, 8, 9, 10] [11],
        .switchTo 0, .trap, .unmapKstack, .leaveProcess, .switchTo 1] := by decide +kernel
  obtain ⟨s, hs, h1, h2⟩ : ∃ s, Run.run cpuStep (.boot (fun f => decide (2 ≤ f)) [0] [1] 0)
      [.createProcess 2, .createThread 0 [3, 4, 5, 6] [], .createThread 0 [7, 8, 9, 10] [11],
        .switchTo 0, .trap, .unmapKstack, .leaveProcess, .switchTo 1] = some s ∧
      s.free 3 = true ∧ s.current = some 1 := by decide +kernel
  exact ⟨s, hs, h1, h2, cpu_memory_in_use (by decide) (by decide) (by decide) hl hs⟩

/-- The only thread of a process exits: its stack is free while the CPU is on it, and then the
root in `CR3` is. -/
theorem exit_frees_memory_in_use :
    (∃ s, Run.run cpuStep (.boot (fun f => decide (2 ≤ f)) [0] [1] 0)
      [.createProcess 2, .createThread 0 [3, 4, 5, 6] [], .switchTo 0, .unmapKstack] = some s ∧
      s.stackOf 0 = [] ∧ s.free 3 = true ∧ ¬ s.InUse) ∧
    ∃ s, Run.run cpuStep (.boot (fun f => decide (2 ≤ f)) [0] [1] 0)
      [.createProcess 2, .createThread 0 [3, 4, 5, 6] [], .switchTo 0, .trap, .unmapKstack,
        .leaveProcess] = some s ∧ s.cr3 = 2 ∧ s.free 2 = true ∧ ¬ s.InUse := by
  constructor
  · obtain ⟨s, hs, h1, h2, h3⟩ : ∃ s, Run.run cpuStep (.boot (fun f => decide (2 ≤ f)) [0] [1] 0)
        [.createProcess 2, .createThread 0 [3, 4, 5, 6] [], .switchTo 0, .unmapKstack] = some s ∧
        s.stackOf 0 = [] ∧ s.free 3 = true ∧ s.current = some 0 := by decide +kernel
    exact ⟨s, hs, h1, h2, fun hu => hu.mapped 0 h3 h1⟩
  · obtain ⟨s, hs, h1, h2⟩ : ∃ s, Run.run cpuStep (.boot (fun f => decide (2 ≤ f)) [0] [1] 0)
        [.createProcess 2, .createThread 0 [3, 4, 5, 6] [], .switchTo 0, .trap, .unmapKstack,
          .leaveProcess] = some s ∧ s.cr3 = 2 ∧ s.free 2 = true := by decide +kernel
    refine ⟨s, hs, h1, h2, fun hu => ?_⟩
    have := hu.tables 2 (by rw [← h1]; exact List.mem_cons_self ..)
    exact absurd (h2.symm.trans this) (by decide)

end Aegis
