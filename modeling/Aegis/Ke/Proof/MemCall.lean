import Aegis.Ke.MemCall
import Aegis.Mm.Proof.VmmHw

/-!
# The address spaces under the memory system calls

Every call works on one address space at most, with the functions of `vmm.c`: a property of address
spaces that these keep holds after every run (`AspaceKept`). Two follow. With page-aligned bases,
and sizes that can be rounded up, the VADs are made of pages, each region can be freed again and the
commit charge is exact; an unaligned base of `NtAllocateVirtualMemory` or `NtMapViewOfSection` is
taken as it is, and gives a VAD that no call can free. And memory is not both writable and
executable unless a call asks for that:
`NtAllocateVirtualMemory` and `NtMapViewOfSection` do not refuse it as `vmm_protect_user` and
`elf_load` do.
-/

namespace Aegis

open Function Outcome

section
variable {σ : Type} {m : Mmu σ} {P : HwState σ → Prop} {allow : Nat → Nat → Prot → Prop}
variable {s : HwState σ}

/-- What the functions of `vmm.c` keep of an address space. `allow`: the bases, sizes and protections
that memory is allocated with. -/
structure AspaceKept (m : Mmu σ) (P : HwState σ → Prop) (allow : Nat → Nat → Prot → Prop) :
    Prop where
  alloc : ∀ s base size prot, P s → allow base size prot →
    P (HwState.vmmAllocUser m s base size prot memCommit).2.2
  free : ∀ s base size, P s → P (HwState.vmmFreeUser m s base size).2
  write : ∀ s va n, P s → P (HwState.vmmWriteAspace m s va n).2

theorem sub64_pages_le {a b : Nat} (ha : a % 4096 = 0) (hb : b % 4096 = 0) :
    sub64 a b ≤ 2 ^ 64 - 4096 := by
  unfold sub64 Word.sub
  omega

/-- What `elf_load` allocates with. -/
def AllowsSegments (allow : Nat → Nat → Prot → Prop) : Prop :=
  ∀ base size flags, base % 4096 = 0 → size ≤ 2 ^ 64 - 4096 → allow base size (segmentProt flags)

theorem loadSegments_keeps (hk : AspaceKept m P allow) (hseg : AllowsSegments allow)
    (phs : List Phdr) (h : P s) : P (HwState.loadSegments m phs s).2 := by
  induction phs generalizing s with
  | nil => exact h
  | cons ph phs ih =>
    have ha := hk.alloc s (pageAlignDown ph.vaddr)
      (sub64 (pageAlignUp (u64 (ph.vaddr + ph.memsz))) (pageAlignDown ph.vaddr))
      (segmentProt ph.flags) h (hseg _ _ _ (pageAlignDown_mod _)
        (sub64_pages_le (pageAlignUp_mod _) (pageAlignDown_mod _)))
    rw [HwState.loadSegments]
    by_cases hload : ph.type ≠ ptLoad
    · rw [if_pos hload]
      exact ih h
    rw [if_neg hload]
    simp only
    obtain ⟨a, hav⟩ : ∃ a, HwState.vmmAllocUser m s (pageAlignDown ph.vaddr)
      (sub64 (pageAlignUp (u64 (ph.vaddr + ph.memsz))) (pageAlignDown ph.vaddr))
      (segmentProt ph.flags) memCommit = a := ⟨_, rfl⟩
    rw [hav] at ha ⊢
    have hw := hk.write a.2.2 ph.vaddr ph.filesz ha
    split
    · exact ha
    · split
      · split
        · exact hw
        · exact ih hw
      · exact ih ha

theorem elfLoad_keeps (hk : AspaceKept m P allow) (hseg : AllowsSegments allow)
    (img : Nat → UInt8) (len : Nat) (h : P s) : P (s.elfLoad m img len).2 := by
  unfold HwState.elfLoad
  split
  · exact h
  · split
    · exact h
    · exact loadSegments_keeps hk hseg _ h

namespace MemSys

variable {s s' : MemSys σ} {cur : Option Nat} {proc : Handle} {base size va : Nat} {prot : Prot}
  {st : Status}

def All (P : HwState σ → Prop) (s : MemSys σ) : Prop := ∀ p, P (s.mem p)

theorem All.setMem (h : s.All P) {p : Nat} {x : HwState σ} (hx : P x) : (s.setMem p x).All P := by
  intro q
  show P (update s.mem p x q)
  by_cases hq : q = p
  · rw [hq, update_self]
    exact hx
  · rw [update_of_ne hq]
    exact h q

theorem processFor_mem {r : Except Status (Option Nat)} (h : s.processFor cur proc = .ok (r, s')) :
    s'.mem = s.mem ∧ s'.sec = s.sec := by
  unfold processFor at h
  simp only at h
  split at h
  · cases h
    exact ⟨rfl, rfl⟩
  · split at h
    · cases h
      exact ⟨rfl, rfl⟩
    · obtain ⟨w, -, h⟩ := bind_eq_ok.1 h
      cases h
      exact ⟨rfl, rfl⟩

def allocProt (prot : Prot) : Prot := if prot ≠ 0 then prot else pageReadWrite

section
variable (hk : AspaceKept m P allow) (hs : s.All P)
include hk hs

theorem ntAllocateVirtualMemory_keeps (ha : allow base size (allocProt prot))
    (h : s.ntAllocateVirtualMemory m cur proc base size prot = .ok (st, va, s')) :
    s'.All P ∧ s'.sec = s.sec := by
  unfold ntAllocateVirtualMemory at h
  obtain ⟨⟨r, s1⟩, hp, h⟩ := bind_eq_ok.1 h
  obtain ⟨hmem, hsec⟩ := processFor_mem hp
  have hs1 : s1.All P := fun p => by rw [hmem]; exact hs p
  match r with
  | .error st' =>
    cases h
    exact ⟨hs1, hsec⟩
  | .ok none =>
    cases h
    exact ⟨hs1, hsec⟩
  | .ok (some p) =>
    simp only at h
    split at h
    · cases h
      exact ⟨hs1, hsec⟩
    · have hx := hk.alloc (s1.mem p) base size (allocProt prot) (hs1 p) ha
      rw [show (if prot ≠ 0 then prot else pageReadWrite) = allocProt prot from rfl] at h
      generalize (s1.mem p).vmmAllocUser m base size (allocProt prot) memCommit = a at hx h
      cases h
      exact ⟨hs1.setMem hx, hsec⟩

theorem ntFreeVirtualMemory_keeps (h : s.ntFreeVirtualMemory m cur proc base size = .ok (st, s')) :
    s'.All P ∧ s'.sec = s.sec := by
  unfold ntFreeVirtualMemory at h
  obtain ⟨⟨r, s1⟩, hp, h⟩ := bind_eq_ok.1 h
  obtain ⟨hmem, hsec⟩ := processFor_mem hp
  have hs1 : s1.All P := fun p => by rw [hmem]; exact hs p
  match r with
  | .error st' =>
    cases h
    exact ⟨hs1, hsec⟩
  | .ok none =>
    cases h
    exact ⟨hs1, hsec⟩
  | .ok (some p) =>
    have hx := hk.free (s1.mem p) base size (hs1 p)
    simp only at h
    generalize (s1.mem p).vmmFreeUser m base size = a at hx h
    cases h
    exact ⟨hs1.setMem hx, hsec⟩

theorem ntUnmapViewOfSection_keeps (h : s.ntUnmapViewOfSection m cur proc base = .ok (st, s')) :
    s'.All P ∧ s'.sec = s.sec := by
  unfold ntUnmapViewOfSection at h
  split at h
  · cases h
    exact ⟨hs, rfl⟩
  · exact ntFreeVirtualMemory_keeps hk hs h

end

theorem ntCreateSection_mem {access : Access} {heap data : Bool} {out : Option Handle}
    (h : s.ntCreateSection cur access size prot heap data = .ok (st, out, s')) :
    s'.mem = s.mem ∧ ∀ o, s'.sec o = s.sec o ∨ s'.sec o = ⟨pageAlignUp size, allocProt prot⟩ := by
  have hkeep : ∀ o' o, update s.sec o' ⟨pageAlignUp size, allocProt prot⟩ o = s.sec o ∨
      update s.sec o' ⟨pageAlignUp size, allocProt prot⟩ o =
        ⟨pageAlignUp size, allocProt prot⟩ := fun o' o => by
    by_cases ho : o = o'
    · subst ho
      exact .inr (by rw [update_self])
    · exact .inl (update_of_ne ho _ _)
  unfold ntCreateSection at h
  split at h
  · cases h
    exact ⟨rfl, fun o => .inl rfl⟩
  · split at h
    · cases h
      exact ⟨rfl, fun o => .inl rfl⟩
    · obtain ⟨⟨o, w⟩, -, h⟩ := bind_eq_ok.1 h
      cases o with
      | none =>
        cases h
        exact ⟨rfl, fun o => .inl rfl⟩
      | some o =>
        simp only at h
        split at h
        · obtain ⟨w', -, h⟩ := bind_eq_ok.1 h
          cases h
          exact ⟨rfl, fun o => hkeep _ o⟩
        · split at h
          · obtain ⟨w', -, h⟩ := bind_eq_ok.1 h
            cases h
            exact ⟨rfl, fun o => hkeep _ o⟩
          · obtain ⟨w', -, h⟩ := bind_eq_ok.1 h
            cases h
            exact ⟨rfl, fun o => hkeep _ o⟩

theorem mapTarget_mem {c so : Nat} {r : Except Status Nat}
    (h : s.mapTarget c proc so = .ok (r, s')) : s'.mem = s.mem ∧ s'.sec = s.sec := by
  unfold mapTarget at h
  split at h
  · cases h
    exact ⟨rfl, rfl⟩
  · split at h
    · obtain ⟨w, -, h⟩ := bind_eq_ok.1 h
      cases h
      exact ⟨rfl, rfl⟩
    · obtain ⟨w, -, h⟩ := bind_eq_ok.1 h
      cases h
      exact ⟨rfl, rfl⟩

theorem mapInto_keeps {p so : Nat} (hk : AspaceKept m P allow) (hs : s.All P)
    (ha : allow base (mapSize (s.sec so) size) (if prot ≠ 0 then prot else (s.sec so).prot))
    (h : s.mapInto m p so base size prot = .ok (st, va, s')) : s'.All P ∧ s'.sec = s.sec := by
  unfold mapInto at h
  simp only at h
  generalize (if prot ≠ 0 then prot else (s.sec so).prot) = prot' at ha h
  have hx := hk.alloc (s.mem p) base (mapSize (s.sec so) size) prot' (hs p) ha
  generalize (s.mem p).vmmAllocUser m base (mapSize (s.sec so) size) prot' memCommit = a at hx h
  have hw := hk.write a.2.2 a.2.1 (mapSize (s.sec so) size) hx
  generalize a.2.2.vmmWriteAspace m a.2.1 (mapSize (s.sec so) size) = b at hw h
  split at h
  · obtain ⟨w, -, h⟩ := bind_eq_ok.1 h
    cases h
    exact ⟨hs.setMem hx, rfl⟩
  · obtain ⟨w, -, h⟩ := bind_eq_ok.1 h
    cases h
    exact ⟨hs.setMem hw, rfl⟩

theorem ntMapViewOfSection_keeps {sec : Handle} (hk : AspaceKept m P allow) (hs : s.All P)
    (ha : ∀ o, allow base (mapSize (s.sec o) size) (if prot ≠ 0 then prot else (s.sec o).prot))
    (h : s.ntMapViewOfSection m cur sec proc base size prot = .ok (st, va, s')) :
    s'.All P ∧ s'.sec = s.sec := by
  unfold ntMapViewOfSection at h
  split at h
  · cases h
    exact ⟨hs, rfl⟩
  · split at h
    · cases h
      exact ⟨hs, rfl⟩
    · obtain ⟨⟨r, s1⟩, ht, h⟩ := bind_eq_ok.1 h
      obtain ⟨hmem, hsec⟩ := mapTarget_mem ht
      have hs1 : s1.All P := fun p => by rw [hmem]; exact hs p
      match r with
      | .error st' =>
        cases h
        exact ⟨hs1, hsec⟩
      | .ok p =>
        obtain ⟨h1, h2⟩ := mapInto_keeps hk hs1 (by rw [hsec]; exact ha _) h
        exact ⟨h1, h2.trans hsec⟩

/-- What a call may ask for, when `allow` is what memory may be allocated with and `secOk` what the
sections are. -/
def Allowed (allow : Nat → Nat → Prot → Prop) (secOk : Section → Prop) : NewMemOp → Prop
  | .allocate _ _ base size prot => allow base size (allocProt prot)
  | .createSection _ _ size prot _ _ => secOk ⟨pageAlignUp size, allocProt prot⟩
  | .mapView _ _ _ base size prot =>
    ∀ x, secOk x → allow base (mapSize x size) (if prot ≠ 0 then prot else x.prot)
  | _ => True

/-- **The rule for the calls that make and free memory.** -/
theorem newMemStep_keeps (secOk : Section → Prop) (hk : AspaceKept m P allow)
    (hseg : AllowsSegments allow) {op : NewMemOp} (hs : s.All P) (hsec : ∀ o, secOk (s.sec o))
    (hop : Allowed allow secOk op) (h : s.newMemStep m op = some s') :
    s'.All P ∧ ∀ o, secOk (s'.sec o) := by
  cases op with
  | elfLoad p img len =>
    cases h
    exact ⟨hs.setMem (elfLoad_keeps hk hseg img len (hs p)), hsec⟩
  | allocate cur proc base size prot =>
    rw [newMemStep] at h
    obtain ⟨⟨st, va, s1⟩, hr, rfl⟩ := Option.map_eq_some_iff.1 h
    obtain ⟨h1, h2⟩ := ntAllocateVirtualMemory_keeps hk hs hop (get?_eq_some.1 hr)
    exact ⟨h1, fun o => by rw [h2]; exact hsec o⟩
  | createSection cur access size prot heap data =>
    rw [newMemStep] at h
    obtain ⟨⟨st, out, s1⟩, hr, rfl⟩ := Option.map_eq_some_iff.1 h
    obtain ⟨h1, h2⟩ := ntCreateSection_mem (get?_eq_some.1 hr)
    refine ⟨fun p => by rw [h1]; exact hs p, fun o => ?_⟩
    rcases h2 o with ho | ho
    · rw [ho]
      exact hsec o
    · rw [ho]
      exact hop
  | mapView cur sec proc base size prot =>
    rw [newMemStep] at h
    obtain ⟨⟨st, va, s1⟩, hr, rfl⟩ := Option.map_eq_some_iff.1 h
    obtain ⟨h1, h2⟩ := ntMapViewOfSection_keeps hk hs (fun o => hop _ (hsec o))
      (get?_eq_some.1 hr)
    exact ⟨h1, fun o => by rw [h2]; exact hsec o⟩
  | unmapView cur proc base =>
    rw [newMemStep] at h
    obtain ⟨⟨st, s1⟩, hr, rfl⟩ := Option.map_eq_some_iff.1 h
    obtain ⟨h1, h2⟩ := ntUnmapViewOfSection_keeps hk hs (get?_eq_some.1 hr)
    exact ⟨h1, fun o => by rw [h2]; exact hsec o⟩
  | free cur proc base size =>
    rw [newMemStep] at h
    obtain ⟨⟨st, s1⟩, hr, rfl⟩ := Option.map_eq_some_iff.1 h
    obtain ⟨h1, h2⟩ := ntFreeVirtualMemory_keeps hk hs (get?_eq_some.1 hr)
    exact ⟨h1, fun o => by rw [h2]; exact hsec o⟩
  | setWorld w =>
    cases h
    exact ⟨hs, hsec⟩

theorem ntProtectVirtualMemory_keeps
    (hk : ∀ x base size r, P x → HwState.vmmProtectUser m x base size prot = .ok r → P r.2.2)
    (hs : s.All P) (h : s.ntProtectVirtualMemory m cur proc base size prot = .ok (st, s')) :
    s'.All P ∧ s'.sec = s.sec := by
  unfold ntProtectVirtualMemory at h
  simp only at h
  split at h
  · cases h
    exact ⟨hs, rfl⟩
  · split at h
    · cases h
      exact ⟨hs, rfl⟩
    · next p hp =>
      split at h
      · obtain ⟨w, -, h⟩ := bind_eq_ok.1 h
        cases h
        exact ⟨hs, rfl⟩
      · obtain ⟨⟨st', old, x⟩, hr, h⟩ := bind_eq_ok.1 h
        have hx := hk (s.mem p) base size (st', old, x) (hs p) hr
        simp only at h
        obtain ⟨w, -, h⟩ := bind_eq_ok.1 h
        cases h
        exact ⟨hs.setMem hx, rfl⟩

/-! ## Pages -/

/-- The VADs are kept well, and none is empty. -/
def Paged (s : HwState σ) : Prop := VadInv s.as ∧ NoneEmpty s.as.slots

theorem paged_kept (m : Mmu σ) :
    AspaceKept m Paged fun base size _ => base % 4096 = 0 ∧ size ≤ 2 ^ 64 - 4096 where
  alloc _ _ size prot h hb := ⟨HwState.vmmAllocUser_inv h.1 hb.1 size prot memCommit,
    HwState.vmmAllocUser_noneEmpty h.1 h.2 hb.1 hb.2 prot memCommit⟩
  free _ base size h := ⟨HwState.vmmFreeUser_inv h.1 base size,
    HwState.vmmFreeUser_noneEmpty h.1 h.2 base size⟩
  write _ _ _ h := h

theorem protectUser_paged (prot : Prot) (x : HwState σ) (base size : Nat)
    (r : Status × Option Prot × HwState σ) (h : Paged x)
    (hr : HwState.vmmProtectUser m x base size prot = .ok r) : Paged r.2.2 := by
  obtain ⟨r', hr', hp⟩ := HwState.vmmProtectUser_keeps prot
    (fun _ => HwState.contained_noneEmpty m prot) h.1 h.2 base size
  rw [hr] at hr'
  cases hr'
  exact hp

/-- A section is not larger than the last page of the address space allows. -/
def SecPaged (x : Section) : Prop := x.size ≤ 2 ^ 64 - 4096

theorem mapSize_le (x : Section) (size : Nat) : mapSize x size ≤ x.size := by
  unfold mapSize
  simp only
  generalize (if size ≠ 0 then pageAlignUp size else x.size) = n
  split <;> omega

theorem memStep_paged {op : MemOp} (hs : s.All Paged ∧ ∀ o, SecPaged (s.sec o))
    (hop : op.Aligned) (h : s.memStep m op = some s') :
    s'.All Paged ∧ ∀ o, SecPaged (s'.sec o) := by
  cases op with
  | newMem op =>
    refine newMemStep_keeps SecPaged (paged_kept m) (fun _ _ _ hb hz => ⟨hb, hz⟩) hs.1 hs.2 ?_ h
    cases op with
    | allocate cur proc base size prot => exact hop
    | mapView cur sec proc base size prot =>
      exact fun x hx => ⟨hop, (mapSize_le x size).trans hx⟩
    | createSection cur access size prot heap data =>
      have hmod := pageAlignUp_mod size
      have hlt := pageAlignUp_lt size
      show pageAlignUp size ≤ _
      omega
    | _ => trivial
  | protect cur proc base size prot =>
    rw [memStep] at h
    obtain ⟨⟨st, s1⟩, hr, rfl⟩ := Option.map_eq_some_iff.1 h
    obtain ⟨h1, h2⟩ := ntProtectVirtualMemory_keeps (protectUser_paged prot) hs.1
      (get?_eq_some.1 hr)
    exact ⟨h1, fun o => by rw [h2]; exact hs.2 o⟩

end MemSys

theorem HwState.vmmFreeUser_whole {v : Slot Unit} (h : VadInv s.as) (hv : v ∈ s.as.slots)
    (hlt : v.start < v.stop) : (s.vmmFreeUser m v.start (v.stop - v.start)).1 = .success := by
  have hok := h.ok v hv
  obtain ⟨hdown, hup, hu, hlt64, hin⟩ := range_of_page hok.start hok.stop hlt hok.top
  obtain ⟨⟨u, i⟩, hc⟩ := vadContainsRange_isSome ⟨v, hv, le_rfl, le_rfl⟩ hlt
  obtain ⟨hi, -, hus, hue⟩ := vadContainsRange_some hc
  have hu' := List.mem_of_getElem? hi
  -- the range meets no other VAD
  obtain rfl : u = v := h.apart.eq_of_mem (x := v.start) hu' hv ⟨hus, by
    show v.start < u.stop
    omega⟩ ⟨le_rfl, hlt⟩
  have hne : u.stop - u.start ≠ 0 := Nat.sub_ne_zero_of_lt hlt
  have hsize : freeSize (u.stop - u.start) = u.stop - u.start := by rw [freeSize, if_pos hne, hup]
  have ht : freeTarget s.as.slots u.start (u.stop - u.start) = .ok (u, i, u.stop) := by
    rw [freeTarget, if_neg hne, hu, hc]
  have hparts := h.freeParts hok.start (show (u.stop - u.start) % 4096 = 0 by
    have h1 := hok.start
    have h2 := hok.stop
    omega) hlt64 hin ht
  obtain ⟨-, -, hl, hm, hr⟩ := hparts
  simp only [Nat.sub_self, Nat.zero_div] at hl hr
  have hf : Freed s.as (pageAlignDown u.start) (freeSize (u.stop - u.start)) u i u.stop 0
      ((u.stop - u.start) / 4096) 0 := by
    rw [hdown, hsize]
    refine ⟨hin, ht, hl.symm, hm.symm, hr.symm, ?_, by simpa using h.count⟩
    have h1 := hok.start
    have h2 := hok.stop
    omega
  rw [vmmFreeUser_of_freed hf]

theorem VadInv.pagesExact (h : VadInv s.as) (hne : NoneEmpty s.as.slots) : PagesExact m s where
  aligned v hv := ⟨(h.ok v hv).start, (h.ok v hv).stop⟩
  unshared := by
    refine h.apart.imp_of_mem fun {v u} hv hu hoff q hq => ?_
    have h1 := (h.ok v hv).start
    have h2 := (h.ok v hv).stop
    have h3 := (h.ok u hu).start
    have h4 := (h.ok u hu).stop
    obtain ⟨⟨h5, h6, h7⟩, h8, h9, h10⟩ := hq
    simp only [Apart.Off] at hoff
    rw [show pageSize = 4096 from rfl] at *
    omega
  released v hv := HwState.vmmFreeUser_whole h hv (hne v hv)
  committed := h.committed

/-- After every run in which the bases that are asked for are page-aligned and the sizes can be rounded
up, the VADs of every process are made of whole pages. -/
theorem vads_pages_exact (m : Mmu σ) (w : World) (mmu : Nat → σ) {ops : List MemOp}
    (hops : ∀ op ∈ ops, op.Aligned) {s : MemSys σ}
    (hr : Run.run (MemSys.memStep m) (MemSys.init w mmu) ops = some s) (p : Nat) :
    PagesExact m (s.mem p) := by
  have hall : s.All MemSys.Paged ∧ ∀ o, MemSys.SecPaged (s.sec o) :=
    Run.run_keeps (I := fun s : MemSys σ => s.All MemSys.Paged ∧ ∀ o, MemSys.SecPaged (s.sec o))
      (fun _ _ _ h hop hs => MemSys.memStep_paged h hop hs)
      ⟨fun _ => ⟨Aspace.init_inv Unit, fun v hv => by cases hv⟩, fun _ => Nat.zero_le _⟩
      (Run.legal_of_forall fun op hop _ => hops op hop) hr
  exact (hall.1 p).1.pagesExact (hall.1 p).2

end

/-! ## Unaligned bases -/

/-- Page tables that never run out of memory. -/
def freeMmu : Mmu Unit where
  ensureLeaf _ _ := (.success, ())
  commitLeaf _ _ := (true, ())
  clearRange _ _ _ := ()
  applyProt _ _ _ _ := ()
  write _ _ _ _ := (.success, ())

/-- A process allocates two regions, a section and a view of it, protects a page and frees one. -/
def alignedOps : List MemOp :=
  [.newMem (.allocate (some 0) handleCurrent 0x10000 0x3000 pageReadWrite),
    .newMem (.allocate (some 0) handleCurrent 0 0x1800 0),
    .protect (some 0) handleCurrent 0x11000 0x1000 pageReadOnly,
    .newMem (.free (some 0) handleCurrent 0x12000 0x1000)]

theorem vads_pages_exact_aligned : ∃ s,
    Run.run (MemSys.memStep freeMmu) (MemSys.init World.blank fun _ => ()) alignedOps = some s ∧
    (s.mem 0).as.slots.length = 3 ∧ PagesExact freeMmu (s.mem 0) := by
  obtain ⟨s, hs, hlen⟩ : ∃ s, Run.run (MemSys.memStep freeMmu) (MemSys.init World.blank fun _ => ())
      alignedOps = some s ∧ (s.mem 0).as.slots.length = 3 := by decide +kernel
  refine ⟨s, hs, hlen, vads_pages_exact freeMmu World.blank _ ?_ hs 0⟩
  intro op hop
  simp only [alignedOps, List.mem_cons, List.not_mem_nil, or_false] at hop
  rcases hop with rfl | rfl | rfl | rfl
  · exact show 0x10000 % 4096 = 0 ∧ 0x3000 ≤ 2 ^ 64 - 4096 by decide
  · exact show 0 % 4096 = 0 ∧ 0x1800 ≤ 2 ^ 64 - 4096 by decide
  · trivial
  · trivial

/-- A process allocates two regions of a page each, the second where the first ends. -/
def unalignedOps : List MemOp :=
  [.newMem (.allocate (some 0) handleCurrent 0x10800 0x1000 pageReadWrite),
    .newMem (.allocate (some 0) handleCurrent 0x11800 0x1000 pageReadWrite)]

/-- The VADs start and end inside of pages and share one, and neither can be freed. -/
theorem vads_unaligned : ∃ s,
    Run.run (MemSys.memStep freeMmu) (MemSys.init World.blank fun _ => ()) unalignedOps = some s ∧
    ¬ PagesExact freeMmu (s.mem 0) ∧
    (s.mem 0).as.slots.map (fun v => (v.start, v.stop)) = [(0x10800, 0x11800), (0x11800, 0x12800)] ∧
    ((s.mem 0).vmmFreeUser freeMmu 0x10800 0x1000).1 = .conflictingAddresses ∧
    ((s.mem 0).vmmFreeUser freeMmu 0x10800 0).1 = .invalidParameter ∧
    ((s.mem 0).vmmFreeUser freeMmu 0x11800 0x1000).1 = .conflictingAddresses ∧
    ((s.mem 0).vmmFreeUser freeMmu 0x11800 0).1 = .invalidParameter := by
  obtain ⟨s, hs, ⟨v, hv, hal⟩, hrest⟩ : ∃ s, Run.run (MemSys.memStep freeMmu)
      (MemSys.init World.blank fun _ => ()) unalignedOps = some s ∧
    (∃ v ∈ (s.mem 0).as.slots, v.start % 4096 ≠ 0) ∧
    (s.mem 0).as.slots.map (fun v => (v.start, v.stop)) = [(0x10800, 0x11800), (0x11800, 0x12800)] ∧
    ((s.mem 0).vmmFreeUser freeMmu 0x10800 0x1000).1 = .conflictingAddresses ∧
    ((s.mem 0).vmmFreeUser freeMmu 0x10800 0).1 = .invalidParameter ∧
    ((s.mem 0).vmmFreeUser freeMmu 0x11800 0x1000).1 = .conflictingAddresses ∧
    ((s.mem 0).vmmFreeUser freeMmu 0x11800 0).1 = .invalidParameter := by decide +kernel
  exact ⟨s, hs, fun hexact => hal (hexact.aligned v hv).1, hrest⟩

/-! ## Writable and executable -/

section
variable {σ : Type} {m : Mmu σ}
variable {prot : Prot} {s : HwState σ}

/-- No VAD is both. -/
def NoWriteExec (s : HwState σ) : Prop := ∀ v ∈ s.as.slots, ¬ WriteExec v.prot

theorem noWriteExec_free (h : NoWriteExec s) (base size : Nat) :
    NoWriteExec (s.vmmFreeUser m base size).2 := by
  rcases HwState.vmmFreeUser_cases m s base size with ⟨st, -, he⟩ | ⟨v, i, stop, nl, nm, nr, hf, he⟩
  · rw [he]
    exact h
  · rw [he]
    have hi := (freeTarget_ok hf.target).1
    intro x hx
    rcases List.mem_append.1 ((carve_perm hi ..).mem_iff.1 hx) with hx | hx
    · have hv := h v (List.mem_of_getElem? hi)
      rcases mem_rests hx with ⟨-, rfl⟩ | ⟨-, rfl⟩ <;> exact hv
    · exact h x (List.mem_of_mem_eraseIdx hx)

theorem noWriteExec_alloc (h : NoWriteExec s) (base size : Nat) (hp : ¬ WriteExec prot) :
    NoWriteExec (s.vmmAllocUser m base size prot memCommit).2.2 := by
  have hadd : ∀ va d, NoWriteExec
      (⟨s.as.addVad base va (pageAlignUp size) prot memCommit (), d⟩ : HwState σ) :=
    fun va d x hx => by
      rcases List.mem_append.1 hx with hx | hx
      · exact h x hx
      · rw [List.mem_singleton.1 hx]
        exact hp
  rcases HwState.vmmAllocUser_cases m s base size prot memCommit with
    ⟨st, -, he⟩ | ⟨va, -, -, -, ⟨-, he⟩ | ⟨-, he⟩⟩
  · rw [he]
    exact h
  · rw [he]
    exact hadd _ _
  · rw [he]
    exact noWriteExec_free (hadd _ _) _ _

theorem noWriteExec_kept (m : Mmu σ) : AspaceKept m NoWriteExec fun _ _ prot => ¬ WriteExec prot where
  alloc _ base size _ h hp := noWriteExec_alloc h base size hp
  free _ base size h := noWriteExec_free h base size
  write _ _ _ h := h

/-- `elf_load` takes one protection of three. -/
theorem segmentProt_notWriteExec (flags : BitVec 32) : ¬ WriteExec (segmentProt flags) := by
  unfold segmentProt
  simp only
  split
  · decide
  · split <;> decide

theorem allocProt_notWriteExec (h : ¬ WriteExec prot) : ¬ WriteExec (MemSys.allocProt prot) := by
  unfold MemSys.allocProt
  split
  · exact h
  · decide

/-- After every run in which no call asks for memory that is both writable and executable, no process
has such memory. -/
theorem no_writable_executable (m : Mmu σ) (w : World) (mmu : Nat → σ) {ops : List NewMemOp}
    (hops : ∀ op ∈ ops, op.NotWriteExec) {s : MemSys σ}
    (hr : Run.run (MemSys.newMemStep m) (MemSys.init w mmu) ops = some s) (p : Nat) :
    ∀ v ∈ (s.mem p).as.slots, ¬ WriteExec v.prot := by
  have hall : s.All NoWriteExec ∧ ∀ o, ¬ WriteExec (s.sec o).prot := by
    refine Run.run_keeps (I := fun s : MemSys σ => s.All NoWriteExec ∧
      ∀ o, ¬ WriteExec (s.sec o).prot)
      (fun s op s' h hop hs => ?_)
      ⟨(fun _ v hv => by cases hv), fun _ => show ¬ WriteExec 0 by decide⟩
      (Run.legal_of_forall fun op hop _ => hops op hop) hr
    refine MemSys.newMemStep_keeps (fun x => ¬ WriteExec x.prot) (noWriteExec_kept m)
      (fun _ _ flags _ _ => segmentProt_notWriteExec flags) h.1 h.2 ?_ hs
    cases op with
    | allocate cur proc base size prot => exact allocProt_notWriteExec hop
    | createSection cur access size prot heap data => exact allocProt_notWriteExec hop
    | mapView cur sec proc base size prot =>
      intro x hx
      split
      · exact hop
      · exact hx
    | _ => trivial
  exact hall.1 p

end

/-- Memory that can be written to, and memory that can be executed. -/
def separateOps : List NewMemOp :=
  [.allocate (some 0) handleCurrent 0x10000 0x2000 0,
    .allocate (some 0) handleCurrent 0x20000 0x1000 pageExecuteRead,
    .free (some 0) handleCurrent 0x11000 0x1000]

theorem no_writable_executable_separate : ∃ s,
    Run.run (MemSys.newMemStep freeMmu) (MemSys.init World.blank fun _ => ()) separateOps = some s ∧
    (s.mem 0).as.slots.map (fun v => v.prot) = [pageReadWrite, pageExecuteRead] ∧
    ∀ v ∈ (s.mem 0).as.slots, ¬ WriteExec v.prot := by
  obtain ⟨s, hs, hprots⟩ : ∃ s, Run.run (MemSys.newMemStep freeMmu)
      (MemSys.init World.blank fun _ => ()) separateOps = some s ∧
    (s.mem 0).as.slots.map (fun v => v.prot) = [pageReadWrite, pageExecuteRead] := by decide +kernel
  refine ⟨s, hs, hprots, no_writable_executable freeMmu World.blank _ ?_ hs 0⟩
  intro op hop
  simp only [separateOps, List.mem_cons, List.not_mem_nil, or_false] at hop
  rcases hop with rfl | rfl | rfl
  · exact show ¬ WriteExec 0 by decide
  · exact show ¬ WriteExec pageExecuteRead by decide
  · trivial

/-- `NtAllocateVirtualMemory` gives what `NtProtectVirtualMemory` refuses. -/
theorem writable_executable_allocated : ∃ s,
    Run.run (MemSys.newMemStep freeMmu) (MemSys.init World.blank fun _ => ())
      [.allocate (some 0) handleCurrent 0x10000 0x1000 pageExecuteReadWrite] = some s ∧
    ∃ v ∈ (s.mem 0).as.slots, WriteExec v.prot := by
  decide +kernel

end Aegis
