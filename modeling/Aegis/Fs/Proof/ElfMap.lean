import Aegis.Fs.Proof.Elf

/-!
# Where `elf_load` puts the segments

Both builds add a VAD for each segment and the copying of its bytes changes no VAD (`Build`), so after
a load the VADs are those of the segments, in order (`LoadInv`). A segment of the first page is given
the base 0, which asks `vmm_alloc_user` to choose a place.
-/

namespace Aegis

variable {ph : Phdr} {α σ : Type}

open Apart SwapList Outcome

/-- Page tables that never run out of memory. -/
def acceptMmu : Mmu Unit where
  ensureLeaf _ _ := (.success, ())
  commitLeaf _ _ := (true, ())
  clearRange _ _ _ := ()
  applyProt _ _ _ _ := ()
  write _ _ _ _ := (.success, ())

/-! ## Sizes -/

theorem Phdr.base_mod (ph : Phdr) : ph.base % 4096 = 0 := pageAlignDown_mod _

theorem Phdr.size_mod (ph : Phdr) : ph.size % 4096 = 0 := by
  have h1 := pageAlignUp_mod (u64 (ph.vaddr + ph.memsz))
  have h2 := ph.base_mod
  unfold Phdr.size sub64 Word.sub
  omega

theorem Phdr.size_lt (ph : Phdr) : ph.size < 2 ^ 64 := sub64_lt _ _

theorem Phdr.pageAlignUp_size (ph : Phdr) : pageAlignUp ph.size = ph.size := by
  have h1 := ph.size_mod
  have h2 := ph.size_lt
  rw [pageAlignUp_of_le (by omega)]
  omega

theorem Phdr.stop_eq {len : Nat} (hp : ph.Policy len) (hw : ph.vaddr + ph.memsz < 2 ^ 64)
    (hpos : ph.size ≠ 0) (hle : ph.size / 4096 ≤ 8192) :
    ph.base = ph.vaddr / 4096 * 4096 ∧
      ph.base + ph.size = (ph.vaddr + ph.memsz + 4095) / 4096 * 4096 := by
  have htop := userCanonicalTop_eq
  have hv := hp.vaddr
  have hbase : ph.base = ph.vaddr / 4096 * 4096 := pageAlignDown_of_lt (by omega)
  refine ⟨hbase, ?_⟩
  have hsize : ph.size = (pageAlignUp (ph.vaddr + ph.memsz) + (2 ^ 64 - ph.base)) % 2 ^ 64 := by
    unfold Phdr.size
    rw [u64_of_lt hw]
    unfold sub64 Word.sub
    congr 1
    omega
  have hup := pageAlignUp_eq (ph.vaddr + ph.memsz)
  omega

/-! ## The builds -/

/-- What the loader does to the VADs. -/
structure Build {τ : Type} (L : Loader τ) (as : τ → Aspace Unit) : Prop where
  alloc : ∀ {s base size prot s'}, L.alloc s base size prot = (.success, s') →
    size ≠ 0 ∧ pageAlignUp size / pageSize ≤ userCommitMax / pageSize ∧
      ∃ va, allocTarget (as s) base (pageAlignUp size) = .ok va ∧
        as s' = (as s).addVad base va (pageAlignUp size) prot memCommit ()
  write : ∀ {s va src st s'}, L.write s va src = .ok (st, s') → as s' = as s

theorem hwLoader_build (m : Mmu σ) : Build (hwLoader m) fun s => s.as where
  alloc := by
    intro s base size prot s' h
    have h1 : (HwState.vmmAllocUser m s base size prot memCommit).1 = .success :=
      congrArg Prod.fst h
    have h2 : (HwState.vmmAllocUser m s base size prot memCommit).2.2 = s' := congrArg Prod.snd h
    rcases HwState.vmmAllocUser_cases m s base size prot memCommit with
      ⟨st, hst, he⟩ | ⟨va, hz, hbig, ht, ⟨-, he⟩ | ⟨-, he⟩⟩
    · rw [he] at h1
      exact absurd h1 hst
    · rw [he] at h2
      exact ⟨hz, hbig, va, ht, by rw [← h2]⟩
    · rw [he] at h1
      cases h1
  write := by
    intro s va src st s' h
    cases ok.inj h
    rfl

/-- An address space without what the build keeps beside the VADs. -/
def Aspace.erase {α : Type} (as : Aspace α) : Aspace Unit :=
  { as with slots := as.slots.map Slot.erase }

theorem allocTarget_erase (as : Aspace α) (base size : Nat) :
    allocTarget as.erase base size = allocTarget as base size := by
  unfold allocTarget overlapsAny
  simp only [Aspace.erase, List.length_map, List.any_map]
  rfl

theorem addVad_erase (as : Aspace α) (base va size : Nat) (prot : Prot) (type : Nat) (x : α) :
    (as.addVad base va size prot type x).erase = as.erase.addVad base va size prot type () := by
  unfold Aspace.erase Aspace.addVad
  simp only [List.map_append, List.map_cons, List.map_nil, Slot.erase]

theorem map_erase_set {l : List (Slot α)} {i : Nat} {v : Slot α} (hi : l[i]? = some v) (x : α) :
    (l.set i { v with shadow := x }).map Slot.erase = l.map Slot.erase := by
  obtain ⟨hlt, rfl⟩ := List.getElem?_eq_some_iff.1 hi
  rw [List.map_set]
  apply List.ext_getElem?
  intro j
  by_cases hj : j = i
  · subst hj
    simp [hlt, Slot.erase]
  · rw [List.getElem?_set_ne (Ne.symm hj)]

section
variable {oom : Nat → Bool} {s s' : Host} {st : Status}

theorem vmmPopulatePage_erase {page : Nat} {write : Bool}
    (h : s.vmmPopulatePage oom page write = .ok (st, s')) : s'.as.erase = s.as.erase := by
  unfold Host.vmmPopulatePage at h
  split at h
  · cases ok.inj h
    rfl
  next v i hl =>
  obtain ⟨hi, -⟩ := vadLookup_some hl
  split at h
  · cases ok.inj h
    rfl
  split at h
  · cases ok.inj h
    rfl
  simp only at h
  split at h
  · cases ok.inj h
    rfl
  -- the array, and then the page
  have harray : ∀ {r s1}, s.withArray oom i v (pagesBetween v.start v.stop) = (r, s1) →
      s1.as.erase = s.as.erase ∧ ∀ w arr, r = some (w, arr) → s1.as.slots[i]? = some w := by
    intro r s1 hr
    unfold Host.withArray at hr
    split at hr
    · cases hr
      refine ⟨rfl, fun w arr he => ?_⟩
      cases he
      exact hi
    · simp only at hr
      cases hr
      constructor
      · unfold Aspace.erase
        simp only [Host.setSlots, Host.kallocArray, map_erase_set hi]
      · intro w arr he
        obtain ⟨a, -, he⟩ := Option.map_eq_some_iff.1 he
        cases he
        exact List.getElem?_set_self (List.getElem?_eq_some_iff.1 hi).1
  split at h
  · next s1 hr =>
    cases ok.inj h
    exact (harray hr).1
  next w arr s1 hr =>
  obtain ⟨he, hi1⟩ := harray hr
  have hw := hi1 w arr rfl
  unfold Host.withPage at h
  split at h
  · cases ok.inj h
    exact he
  split at h
  · cases h
  · cases ok.inj h
    exact he
  · unfold Host.kallocPage at h
    split at h
    · next hk =>
      split at hk
      · cases hk
        cases ok.inj h
        exact he
      · cases hk
    · next hk =>
      split at hk
      · cases hk
      · cases hk
        cases ok.inj h
        rw [← he]
        unfold Aspace.erase
        simp only [Host.setSlots, map_erase_set hw]

theorem writeLoop_erase {k va : Nat} {src : List UInt8}
    (h : s.writeLoop oom k va src = .ok (st, s')) : s'.as.erase = s.as.erase := by
  induction k generalizing s va src with
  | zero =>
    cases src with
    | nil =>
      cases ok.inj h
      rfl
    | cons b bs => cases h
  | succ k ih =>
    cases src with
    | nil =>
      cases ok.inj h
      rfl
    | cons b bs =>
      rw [Host.writeLoop] at h
      obtain ⟨⟨st1, s1⟩, hpop, h⟩ := bind_eq_ok.1 h
      have he := vmmPopulatePage_erase hpop
      simp only at h
      split at h
      · cases ok.inj h
        exact he
      obtain ⟨x, -, h⟩ := bind_eq_ok.1 h
      split at h
      · cases ok.inj h
        exact he
      · split at h
        · cases h
        · exact (ih h).trans he

theorem hostLoader_alloc {base size : Nat} {prot : Prot}
    (h : (hostLoader oom).alloc s base size prot = (st, s')) :
    (s.vmmAllocUser base size prot memCommit).1 = st ∧
      (s.vmmAllocUser base size prot memCommit).2.2 = s' :=
  ⟨congrArg Prod.fst h, congrArg Prod.snd h⟩

theorem hostLoader_writeSegment (img : Nat → UInt8) (s : Host) (ph : Phdr) :
    (hostLoader oom).writeSegment img s ph =
      s.vmmWriteAspace oom ph.vaddr (imageBytes img ph.offset ph.filesz) := rfl

theorem hostLoader_build (oom : Nat → Bool) : Build (hostLoader oom) fun s => s.as.erase where
  alloc := by
    intro s base size prot s' h
    obtain ⟨h1, h2⟩ := hostLoader_alloc h
    unfold Host.vmmAllocUser at h1 h2
    cases hp : allocPlan s.as base size with
    | error st =>
      rw [hp] at h1
      exact absurd h1 (allocPlan_error hp)
    | ok va =>
      rw [hp] at h2
      obtain ⟨hz, hbig, ht⟩ := allocPlan_eq_ok.1 hp
      refine ⟨hz, hbig, va, (allocTarget_erase ..).trans ht, ?_⟩
      rw [← h2]
      exact addVad_erase ..
  write := by
    intro s va src st s' h
    have h : s.vmmWriteAspace oom va src = .ok (st, s') := h
    unfold Host.vmmWriteAspace at h
    split at h
    · cases ok.inj h
      rfl
    · exact writeLoop_erase h

end

theorem hwLoader_loadSegments (m : Mmu σ) (img : Nat → UInt8) (phs : List Phdr) (s : HwState σ) :
    (hwLoader m).loadSegments img phs s = .ok (HwState.loadSegments m phs s) := by
  induction phs generalizing s with
  | nil => rfl
  | cons ph phs ih =>
    have hwrite : ∀ s1, (hwLoader m).writeSegment img s1 ph =
        .ok (HwState.vmmWriteAspace m s1 ph.vaddr ph.filesz) := by
      intro s1
      have hlen : (imageBytes img ph.offset ph.filesz).length = ph.filesz := by simp [imageBytes]
      show ok (HwState.vmmWriteAspace m s1 ph.vaddr
        (imageBytes img ph.offset ph.filesz).length) = _
      rw [hlen]
    obtain ⟨r, hr⟩ : ∃ r, HwState.vmmAllocUser m s ph.base ph.size (segmentProt ph.flags)
      memCommit = r := ⟨_, rfl⟩
    have halloc : (hwLoader m).allocSegment s ph = (r.1, r.2.2) := by
      rw [← hr]
      rfl
    have hr' : HwState.vmmAllocUser m s (pageAlignDown ph.vaddr)
        (sub64 (pageAlignUp (u64 (ph.vaddr + ph.memsz))) (pageAlignDown ph.vaddr))
        (segmentProt ph.flags) memCommit = r := hr
    rw [Loader.loadSegments, HwState.loadSegments]
    by_cases ht : ph.type ≠ ptLoad
    · rw [if_pos ht, if_pos ht, ih]
    rw [if_neg ht, if_neg ht]
    simp only [halloc, hr', hwrite, ok_bind]
    by_cases hst : ntSuccess r.1 = false
    · rw [if_pos hst, if_pos hst]
    rw [if_neg hst, if_neg hst]
    by_cases hf : ph.filesz ≠ 0
    · rw [if_pos hf, if_pos hf]
      by_cases hw : ntSuccess (HwState.vmmWriteAspace m r.2.2 ph.vaddr ph.filesz).1 = false
      · rw [if_pos hw, if_pos hw]
      · rw [if_neg hw, if_neg hw, ih]
    · rw [if_neg hf, if_neg hf, ih]

theorem hwLoader_elfLoad (m : Mmu σ) (img : Nat → UInt8) (s : HwState σ) (len : Nat) :
    (hwLoader m).elfLoad img s len = .ok (HwState.elfLoad m s img len) := by
  unfold Loader.elfLoad HwState.elfLoad
  cases ehdrPolicy img len with
  | some st => rfl
  | none =>
    cases (phdrs img).findSome? (phdrPolicy len) with
    | some st => rfl
    | none => exact hwLoader_loadSegments m img (phdrs img) s

/-! ## The VADs after a load -/

/-- The VAD of a segment. -/
structure Placed (ph : Phdr) (v : Slot Unit) : Prop where
  prot : v.prot = segmentProt ph.flags
  pos : ph.size ≠ 0
  small : ph.size / 4096 ≤ 8192
  stop : v.stop = v.start + ph.size
  start : if ph.base = 0 then userHeapBase ≤ v.start else v.start = ph.base

def segments (phs : List Phdr) : List Phdr := phs.filter fun ph => ph.type = ptLoad

theorem mem_segments {phs : List Phdr} :
    ph ∈ segments phs ↔ ph ∈ phs ∧ ph.type = ptLoad := by simp [segments]

/-- The segments loaded so far have their VADs, in order. -/
structure LoadInv (done : List Phdr) (as : Aspace Unit) : Prop where
  vads : VadInv as
  brk : userHeapBase ≤ as.brk
  placed : List.Forall₂ Placed (segments done) as.slots

theorem Aspace.Empty.loadInv {as : Aspace α} (h : as.Empty) : LoadInv [] as.erase := by
  have hslots : as.erase.slots = [] := by rw [Aspace.erase, h.slots, List.map_nil]
  refine ⟨⟨?_, ?_, ?_, ?_, ?_, h.aligned⟩, h.brk, ?_⟩
  · rw [hslots]
    exact Nat.zero_le _
  · rw [hslots]
    intro v hv
    cases hv
  · rw [hslots]
    exact List.Pairwise.nil
  · rw [hslots]
    exact h.committed
  · show as.committedPages ≤ _
    rw [h.committed]
    exact Nat.zero_le _
  · rw [hslots]
    exact .nil

section
variable {τ : Type} {L : Loader τ} {as : τ → Aspace Unit} {img : Nat → UInt8} {s s' : τ}
  {ph : Phdr} {done phs : List Phdr}

theorem LoadInv.segment (hB : Build L as) (h : LoadInv done (as s)) (ht : ph.type = ptLoad)
    (hs : L.segment img s ph = .ok (.success, s')) : LoadInv (done ++ [ph]) (as s') := by
  obtain ⟨s1, ha, hcopy⟩ := Loader.segment_ok hs
  have hw : as s' = as s1 := by
    split at hcopy
    · exact hB.write hcopy
    · rw [hcopy]
  rw [hw]
  obtain ⟨hz, hbig, va, htarget, has⟩ := hB.alloc ha
  rw [ph.pageAlignUp_size] at hbig htarget has
  have hva := (allocTarget_ok htarget).1
  have hin := (allocTarget_ok htarget).2.1
  have hu := (inside_user ph.size_lt hin).2.1
  have hbrk := h.brk
  have hplaced : Placed ph ⟨⟨va, va + ph.size, segmentProt ph.flags, memCommit, 1⟩, ()⟩ := by
    refine ⟨rfl, hz, hbig, rfl, ?_⟩
    by_cases h0 : ph.base = 0
    · rw [if_pos h0] at hva ⊢
      rw [hva]
      exact h.brk
    · rw [if_neg h0] at hva ⊢
      exact hva
  rw [has]
  refine ⟨h.vads.addVad htarget ph.base_mod ph.size_mod ph.size_lt _ _ _, ?_, ?_⟩
  · unfold Aspace.addVad
    simp only
    split
    · next h0 =>
      rw [if_pos h0] at hva
      rw [hu]
      omega
    · exact h.brk
  · have hseg : segments (done ++ [ph]) = segments done ++ [ph] := by simp [segments, ht]
    rw [hseg, Aspace.addVad, hu]
    exact List.rel_append h.placed (.cons hplaced .nil)

theorem LoadInv.load (hB : Build L as) (h : LoadInv done (as s))
    (hs : L.loadSegments img phs s = .ok (.success, s')) : LoadInv (done ++ phs) (as s') := by
  induction phs generalizing s done with
  | nil =>
    cases ok.inj hs
    rwa [List.append_nil]
  | cons ph phs ih =>
    rw [List.append_cons]
    by_cases ht : ph.type = ptLoad
    · obtain ⟨s1, hseg, hrest⟩ := (Loader.loadSegments_cons_ok ht).1 hs
      exact ih (h.segment hB ht hseg) hrest
    · rw [(Loader.loadSegments_skip ht phs s).1] at hs
      refine ih ⟨h.vads, h.brk, ?_⟩ hs
      have hseg : segments (done ++ [ph]) = segments done := by simp [segments, ht]
      rw [hseg]
      exact h.placed

end

/-! ## Where the segments are -/

section
variable {as : Aspace Unit} {phs : List Phdr} {len : Nat}
variable {ph : Phdr} {v : Slot Unit}

theorem Placed.first (h : Placed ph v) : 4096 ≤ v.start ∧ v.start < v.stop := by
  have h1 := h.start
  have h2 := h.stop
  have h3 := h.pos
  have h4 := ph.base_mod
  have h5 : userHeapBase = 0x1000000 := rfl
  split at h1 <;> omega

theorem LoadInv.getElem (h : LoadInv phs as) (hm : ph ∈ phs) (ht : ph.type = ptLoad) :
    ∃ (i : Nat) (v : Slot Unit), (segments phs)[i]? = some ph ∧ as.slots[i]? = some v ∧
      Placed ph v := by
  obtain ⟨i, hi⟩ := List.getElem?_of_mem (mem_segments.2 ⟨hm, ht⟩)
  obtain ⟨hlt, -⟩ := List.getElem?_eq_some_iff.1 hi
  have hlen := h.placed.length_eq
  refine ⟨i, as.slots.get ⟨i, by omega⟩, hi, ?_, ?_⟩
  · exact List.getElem?_eq_getElem (by omega)
  · have hget := List.forall₂_iff_get.1 h.placed
    have hp := hget.2 i hlt (by omega)
    rw [List.getElem?_eq_some_iff] at hi
    obtain ⟨_, rfl⟩ := hi
    exact hp

theorem LoadInv.mem_slots (h : LoadInv phs as) (hv : v ∈ as.slots) :
    ∃ ph ∈ phs, ph.type = ptLoad ∧ Placed ph v := by
  obtain ⟨i, hi⟩ := List.getElem?_of_mem hv
  obtain ⟨hlt, rfl⟩ := List.getElem?_eq_some_iff.1 hi
  have hlen := h.placed.length_eq
  have hget := List.forall₂_iff_get.1 h.placed
  have hm := mem_segments.1 (List.get_mem (segments phs) ⟨i, by omega⟩)
  exact ⟨_, hm.1, hm.2, hget.2 i (by omega) hlt⟩

theorem LoadInv.unique (h : LoadInv phs as) {ph' : Phdr} {i j : Nat} {v' : Slot Unit}
    (hi : (segments phs)[i]? = some ph) (hj : (segments phs)[j]? = some ph')
    (hv : as.slots[i]? = some v) (hv' : as.slots[j]? = some v') {a : Nat} (ha : v.Has a)
    (ha' : v'.Has a) : ph = ph' := by
  have hij : i = j := by
    by_contra hne
    obtain ⟨h1, rfl⟩ := List.getElem?_eq_some_iff.1 hv
    obtain ⟨h2, rfl⟩ := List.getElem?_eq_some_iff.1 hv'
    have hoff := List.pairwise_iff_getElem.1 h.vads.apart
    simp only [Off] at hoff
    obtain ⟨ha1, ha2⟩ := ha
    obtain ⟨ha3, ha4⟩ := ha'
    rcases Nat.lt_or_gt_of_ne hne with hlt | hlt
    · have := hoff i j h1 h2 hlt
      omega
    · have := hoff j i h2 h1 hlt
      omega
  subst hij
  exact Option.some.inj (hi.symm.trans hj)

theorem LoadInv.maps_iff (h : LoadInv phs as) (hp : ∀ ph ∈ phs, ph.type = ptLoad → ph.Policy len) :
    MapsSegments phs as.slots ↔ ∀ ph ∈ phs, ph.type = ptLoad → ph.Placeable := by
  have htop := userCanonicalTop_eq
  have hheap : userHeapBase = 0x1000000 := rfl
  have hpage : pageSize = 4096 := rfl
  constructor
  · intro hmap
    -- no end wraps, since no VAD goes beyond the user half
    have hwrap : ∀ ph ∈ phs, ph.type = ptLoad → ph.vaddr + ph.memsz < 2 ^ 64 := by
      intro ph hm ht
      by_contra hge
      have hva := (hp ph hm ht).vaddr
      obtain ⟨v, hv, -, hstop, -⟩ := hmap.covered ph hm ht (by omega)
      have := (h.vads.ok v hv).top
      omega
    -- a segment of the first page is empty, since no VAD has this page
    have hempty : ∀ ph ∈ phs, ph.type = ptLoad → ph.vaddr < 4096 → ph.memsz = 0 := by
      intro ph hm ht hlt
      by_contra hne
      obtain ⟨v, hv, hstart, -, -⟩ := hmap.covered ph hm ht hne
      obtain ⟨ph', -, -, hpl⟩ := h.mem_slots hv
      have := hpl.first.1
      omega
    intro ph hm ht
    refine ⟨?_, hwrap ph hm ht⟩
    by_contra hlt
    rw [hpage, not_le] at hlt
    -- but then its VAD is at the break, where no segment says it is
    obtain ⟨i, v, hi, hv, hpl⟩ := h.getElem hm ht
    have hzero := hempty ph hm ht hlt
    have hbase : ph.base = 0 := by
      rw [Phdr.base, pageAlignDown_of_lt (by omega)]
      omega
    have hstart := hpl.start
    rw [if_pos hbase] at hstart
    have hfirst := hpl.first
    obtain ⟨ph', hm', ht', hlo, hhi⟩ := hmap.only v (List.mem_of_getElem? hv) v.start le_rfl hfirst.2
    rw [hpage] at hlo hhi
    by_cases hlt' : ph'.vaddr < 4096
    · have := hempty ph' hm' ht' hlt'
      omega
    · obtain ⟨j, v', hj, hv', hpl'⟩ := h.getElem hm' ht'
      obtain ⟨hb', hs'⟩ := Phdr.stop_eq (hp ph' hm' ht') (hwrap ph' hm' ht') hpl'.pos hpl'.small
      have hstart' := hpl'.start
      rw [if_neg (by omega)] at hstart'
      have hstop' := hpl'.stop
      have he := h.unique hi hj hv hv' ⟨le_rfl, hfirst.2⟩
        (show v'.start ≤ v.start ∧ v.start < v'.stop by omega)
      rw [he] at hlt
      omega
  · intro hall
    -- the VAD of a segment is its rounded range
    have hrange : ∀ ph ∈ phs, ph.type = ptLoad → ∀ v, Placed ph v →
        v.start = ph.vaddr / 4096 * 4096 ∧
          v.stop = (ph.vaddr + ph.memsz + 4095) / 4096 * 4096 := by
      intro ph hm ht v hpl
      obtain ⟨hge, hw⟩ := hall ph hm ht
      obtain ⟨hb, hs⟩ := Phdr.stop_eq (hp ph hm ht) hw hpl.pos hpl.small
      have hstart := hpl.start
      rw [if_neg (by omega)] at hstart
      have hstop := hpl.stop
      omega
    constructor
    · intro ph hm ht _
      obtain ⟨i, v, -, hv, hpl⟩ := h.getElem hm ht
      have := hrange ph hm ht v hpl
      exact ⟨v, List.mem_of_getElem? hv, by omega, by omega, hpl.prot⟩
    · intro v hv a h1 h2
      obtain ⟨ph, hm, ht, hpl⟩ := h.mem_slots hv
      have := hrange ph hm ht v hpl
      exact ⟨ph, hm, ht, by rw [hpage]; omega, by rw [hpage]; omega⟩

theorem mapsSegments_erase {α : Type} (phs : List Phdr) (l : List (Slot α)) :
    MapsSegments phs (l.map Slot.erase) ↔ MapsSegments phs l := by
  constructor
  · rintro ⟨h1, h2⟩
    constructor
    · intro ph hm ht hz
      obtain ⟨v, hv, hr⟩ := h1 ph hm ht hz
      obtain ⟨u, hu, rfl⟩ := List.mem_map.1 hv
      exact ⟨u, hu, hr⟩
    · intro v hv
      exact h2 v.erase (List.mem_map_of_mem hv)
  · rintro ⟨h1, h2⟩
    constructor
    · intro ph hm ht hz
      obtain ⟨v, hv, hr⟩ := h1 ph hm ht hz
      exact ⟨v.erase, List.mem_map_of_mem hv, hr⟩
    · intro v hv
      obtain ⟨u, hu, rfl⟩ := List.mem_map.1 hv
      exact h2 u hu

theorem Build.maps_iff {τ : Type} {L : Loader τ} {as : τ → Aspace Unit} (hB : Build L as)
    {img : Nat → UInt8} {s s' : τ} (h : LoadInv [] (as s))
    (hs : L.elfLoad img s len = .ok (.success, s')) :
    MapsSegments (phdrs img) (as s').slots ↔ ∀ ph ∈ phdrs img, ph.type = ptLoad → ph.Placeable := by
  obtain ⟨-, hpol, hload⟩ := Loader.elfLoad_ok hs
  exact (h.load hB hload).maps_iff fun ph hm ht => policy_of_findSome hpol hm ht

/-- After a successful `elf_load` into an empty address space every segment is where its header says
and nothing else is mapped, exactly if no segment starts in the first page and the end of none
wraps. -/
theorem elfLoad_maps_iff (img : Nat → UInt8) (len : Nat) :
    (∀ (oom : Nat → Bool) (s s' : Host), s.as.Empty →
      (hostLoader oom).elfLoad img s len = .ok (.success, s') →
      (MapsSegments (phdrs img) s'.as.slots ↔ ∀ ph ∈ phdrs img, ph.type = ptLoad → ph.Placeable)) ∧
    ∀ (σ : Type) (m : Mmu σ) (s s' : HwState σ), s.as.Empty →
      HwState.elfLoad m s img len = (.success, s') → (MapsSegments (phdrs img) s'.as.slots ↔
        ∀ ph ∈ phdrs img, ph.type = ptLoad → ph.Placeable) := by
  constructor
  · intro oom s s' he hs
    rw [← mapsSegments_erase]
    exact (hostLoader_build oom).maps_iff he.loadInv hs
  · intro σ m s s' he hs
    have hload := hwLoader_elfLoad m img s len
    rw [hs] at hload
    have hinv : LoadInv [] s.as := by
      have := he.loadInv
      rwa [Aspace.erase, show s.as.slots.map Slot.erase = s.as.slots from List.map_id _] at this
    exact (hwLoader_build m).maps_iff hinv hload

/-- A segment without bytes of the file in the first page, and one whose end wraps. -/
def lowSegment : Phdr := ⟨ptLoad, 6#32, 0, 0, 0, 0x1000⟩

def longSegment : Phdr := ⟨ptLoad, 6#32, 0, 0x400800, 0, 2 ^ 64 - 0x400⟩

theorem Aspace.init_empty (α : Type) : (Aspace.init α).Empty :=
  ⟨rfl, rfl, le_rfl, show userHeapBase % pageSize = 0 by decide⟩

theorem elfLoad_maps_iff_plain :
    (∃ s', (hostLoader fun _ => false).elfLoad (imageOf [Loader.plainSegment]) Host.init 120 =
        .ok (.success, s') ∧ MapsSegments [Loader.plainSegment] s'.as.slots) ∧
    ∃ s', HwState.elfLoad acceptMmu ⟨Aspace.init Unit, ()⟩ (imageOf [Loader.plainSegment]) 120 =
        (.success, s') ∧ MapsSegments [Loader.plainSegment] s'.as.slots := by
  have hphdrs : phdrs (imageOf [Loader.plainSegment]) = [Loader.plainSegment] := by decide +kernel
  have hplace : ∀ ph ∈ phdrs (imageOf [Loader.plainSegment]), ph.type = ptLoad → ph.Placeable := by
    rw [hphdrs]
    decide
  constructor
  · obtain ⟨⟨st, s'⟩, hr, rfl⟩ : ∃ r, (hostLoader fun _ => false).elfLoad
        (imageOf [Loader.plainSegment]) Host.init 120 = .ok r ∧ r.1 = .success := by decide +kernel
    refine ⟨s', hr, ?_⟩
    have hmap := ((elfLoad_maps_iff _ _).1 _ _ _ (Aspace.init_empty Shadow) hr).2 hplace
    rwa [hphdrs] at hmap
  · have hst : (HwState.elfLoad acceptMmu ⟨Aspace.init Unit, ()⟩ (imageOf [Loader.plainSegment])
        120).1 = .success := by decide +kernel
    obtain ⟨r, hr⟩ : ∃ r, HwState.elfLoad acceptMmu ⟨Aspace.init Unit, ()⟩
        (imageOf [Loader.plainSegment]) 120 = r := ⟨_, rfl⟩
    rw [hr] at hst
    have hpair := hr.trans (Prod.ext hst rfl : r = (.success, r.2))
    refine ⟨r.2, hpair, ?_⟩
    have hmap := ((elfLoad_maps_iff _ _).2 Unit _ _ _ (Aspace.init_empty Unit) hpair).2 hplace
    rwa [hphdrs] at hmap

/-- Both segments are mapped elsewhere than their headers say. -/
theorem elfLoad_maps_elsewhere :
    (∃ s', (hostLoader fun _ => false).elfLoad (imageOf [lowSegment]) Host.init 120 =
        .ok (.success, s') ∧ ¬ MapsSegments (phdrs (imageOf [lowSegment])) s'.as.slots) ∧
    ∃ s', (hostLoader fun _ => false).elfLoad (imageOf [longSegment]) Host.init 120 =
        .ok (.success, s') ∧ ¬ MapsSegments (phdrs (imageOf [longSegment])) s'.as.slots := by
  have hmaps : ∀ ph : Phdr, phdrs (imageOf [ph]) = [ph] → ph.type = ptLoad → ph.memsz ≠ 0 →
      (∃ r, (hostLoader fun _ => false).elfLoad (imageOf [ph]) Host.init 120 = .ok r ∧
        r.1 = .success ∧
        ∀ v ∈ r.2.as.slots, ph.vaddr < v.start ∨ v.stop < ph.vaddr + ph.memsz) →
      ∃ s', (hostLoader fun _ => false).elfLoad (imageOf [ph]) Host.init 120 = .ok (.success, s') ∧
        ¬ MapsSegments (phdrs (imageOf [ph])) s'.as.slots := by
    rintro ph hphdrs ht hz ⟨⟨st, s'⟩, hr, rfl, hall⟩
    refine ⟨s', hr, fun hmap => ?_⟩
    rw [hphdrs] at hmap
    obtain ⟨v, hv, h1, h2, -⟩ := hmap.covered ph List.mem_cons_self ht hz
    have hno := hall v hv
    omega
  constructor
  · apply hmaps <;> decide +kernel
  · apply hmaps <;> decide +kernel

end

end Aegis
