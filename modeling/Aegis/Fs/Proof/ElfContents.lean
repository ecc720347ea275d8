import Aegis.Fs.Proof.ElfMap
import Aegis.Mm.Proof.RangeSpec

/-!
# What the segments hold after `elf_load` in the host build

Every segment has pages of its own, which are zero when they are added, and the bytes of the file are
written to them and to no others. So after each segment the pages hold the bytes of the segments so
far, and zeros (`ContentInv`).
-/

namespace Aegis

open Outcome

/-! ## Reading a byte -/

section
variable {oom : Nat → Bool} {s : Host} {v : Slot Shadow} {page a : Nat} {b : UInt8}

theorem vmmPopulatePage_ok (h : HostInv s) (hoom : ∀ n, oom n = false) (hv : v ∈ s.as.slots)
    (hhas : v.Has page) (hp : v.prot &&& pageNoAccess = 0) :
    ∃ s', s.vmmPopulatePage oom page false = .ok (.success, s') := by
  obtain ⟨i, hl⟩ := vadLookup_of_mem h.vads.apart hv hhas
  obtain ⟨hi, -⟩ := vadLookup_some hl
  have hok := h.vads.ok v hv
  have hpages : (v.stop - v.start) / 4096 ≠ 0 := by
    have h1 := hok.start
    have h2 := hok.stop
    obtain ⟨h3, h4⟩ := hhas
    omega
  unfold Host.vmmPopulatePage
  simp only [hl]
  rw [if_neg (not_not.2 hp), if_neg (by simp), h.vads.pagesBetween hv le_rfl hok.le le_rfl,
    if_neg hpages]
  obtain ⟨r, s1, hr, hinv, -, hsome⟩ := Host.withArray_spec oom h hi
  have hr' := hr
  rw [show (v.stop - v.start) / 4096 = v.pages from rfl, hr]
  cases r with
  | none =>
    unfold Host.withArray Host.kallocArray at hr'
    split at hr'
    · cases hr'
    · simp only [hoom, Bool.false_eq_true, if_false] at hr'
      cases hr'
  | some x =>
    obtain ⟨w, arr⟩ := x
    obtain ⟨hi1, hw, ha⟩ := hsome w arr rfl
    have hhas1 : w.Has page := by rw [hw]; exact hhas
    have hw1 := List.mem_of_getElem? hi1
    simp only
    rw [hinv.vads.pagesBetween hw1 le_rfl hhas1.1 hhas1.2.le]
    obtain ⟨st, s2, hs2, -⟩ := Host.withPage_spec oom hinv hi1 ha hhas1
    have hs := hs2
    have hnp := (hinv.shaped w hw1).npages (by rw [ha]; simp)
    have hidx : ¬ (page - w.start) / 4096 ≥ w.shadow.npages := by
      have h1 := (hinv.vads.ok w hw1).pages_mul
      obtain ⟨h2, h3⟩ := hhas1
      omega
    unfold Host.withPage at hs
    rw [if_neg hidx] at hs
    split at hs
    · cases hs
    · cases ok.inj hs
      exact ⟨_, hs2⟩
    · unfold Host.kallocPage at hs
      simp only [hoom, Bool.false_eq_true, if_false] at hs
      cases ok.inj hs
      exact ⟨_, hs2⟩

theorem HostInv.readsByte (h : HostInv s) (hv : v ∈ s.as.slots) (hhas : v.Has a)
    (hp : v.prot &&& pageNoAccess = 0) (hb : s.user.byte a = some b) : s.ReadsByte a b := by
  intro oom
  have htop := userCanonicalTop_eq
  have hok := h.vads.ok v hv
  have ha : a < 2 ^ 64 := by
    have h1 := hok.top
    have h2 := hhas.2
    omega
  obtain ⟨st, bytes, s', hr, -, -, hlen, hall, hbytes⟩ := Host.readLoop_spec oom h ha (n := 1) le_rfl
  refine ⟨st, bytes, s', ?_, fun hst => ?_, fun hoom => ?_⟩
  · rw [Host.vmmReadAspace, if_neg one_ne_zero, hr]
  · obtain ⟨x, hx⟩ := List.length_eq_one_iff.1 (hall hst)
    have h0 := hbytes 0 (by rw [hx]; exact Nat.one_pos)
    rw [hx, Nat.add_zero, hb] at h0
    rw [hx, ← Option.some.inj h0]
  · have hpage : v.Has (a / 4096 * 4096) := (has_page hok a).2 hhas
    obtain ⟨s1, hpop⟩ := vmmPopulatePage_ok h hoom hv hpage hp
    obtain ⟨st1, s2, hpop2, hinv, -, hback⟩ := vmmPopulatePage_spec oom h (a / 4096 * 4096) false
    rw [hpop] at hpop2
    cases ok.inj hpop2
    obtain ⟨w, x, hb'⟩ := hback rfl
    obtain ⟨buf, hbuf⟩ := hb'.heap hinv
    have hdown := pageAlignDown_of_lt ha
    have hmin : min (0 + 1) (pageSize - a % pageSize) = 1 := by
      apply Nat.min_eq_left
      show 0 + 1 ≤ 4096 - a % 4096
      omega
    rw [Host.readLoop] at hr
    simp only [hdown, hpop, ok_bind, hb'.pagePointer hinv, hbuf, hmin] at hr
    rw [if_neg (by decide)] at hr
    cases ok.inj hr
    rfl

end

/-! ## Bytes of the user's map -/

theorem UserMap.byte_write (M : UserMap) (va a : Nat) (src : List UInt8) :
    (M.write va src).byte a = (M.byte a).map fun b =>
      if va ≤ a ∧ a < va + src.length then src.getD (a - va) 0 else b := by
  have ha : a / 4096 * 4096 + a % 4096 = a := by omega
  have hlt : a % 4096 < 4096 := by omega
  rw [UserMap.byte, UserMap.write, UserMap.byte, Option.map_map, Option.map_map]
  congr 1
  funext x
  simp only [Function.comp_apply, ha, hlt, true_and]

theorem UserMap.byte_add (M : UserMap) (lo hi a : Nat) (prot : Prot) :
    (M.onRange lo hi fun _ => some (prot, zeroPage)).byte a =
      if InRange lo hi (a / 4096) then some 0 else M.byte a := by
  unfold UserMap.byte UserMap.onRange
  split <;> rfl

theorem imageBytes_getD {img : Nat → UInt8} {off n j : Nat} (hj : j < n) (h : off + n < 2 ^ 64) :
    (imageBytes img off n).getD j 0 = img (off + j) := by
  rw [imageBytes, List.getD_eq_getElem?_getD, List.getElem?_map, List.getElem?_range hj,
    Option.map_some, Option.getD_some, u64_of_lt (by omega)]

theorem imageBytes_length (img : Nat → UInt8) (off n : Nat) : (imageBytes img off n).length = n := by
  simp [imageBytes]

/-! ## The pages after a load -/

/-- The pages hold the bytes of the segments, and zeros. -/
structure ContentInv (img : Nat → UInt8) (done : List Phdr) (s : Host) : Prop where
  inv : HostInv s
  load : LoadInv done s.as.erase
  file : ∀ ph ∈ segments done, ∀ j < ph.filesz,
    s.user.byte (ph.vaddr + j) = some (img (ph.offset + j))
  zero : ∀ a b, s.user.byte a = some b → (∀ ph ∈ segments done, ¬ ph.InFile a) → b = 0

/-- The sums of a segment do not wrap, and it has passed the tests. -/
structure Phdr.Fits (ph : Phdr) (len : Nat) : Prop where
  policy : ph.Policy len
  offset : ph.offset + ph.filesz < 2 ^ 64
  vaddr : ph.vaddr + ph.memsz < 2 ^ 64

section
variable {oom : Nat → Bool} {img : Nat → UInt8} {s s' : Host} {ph : Phdr} {done phs : List Phdr}
  {len : Nat}
variable {a va : Nat} {s1 : Host} {b : UInt8}

theorem LoadInv.byte_low (h : LoadInv done s.as.erase) (ha : a < 4096) : s.user.byte a = none := by
  rw [UserMap.byte, Option.map_eq_none_iff]
  apply dataAt_eq_none.2
  intro v hv hhas
  obtain ⟨ph, -, -, hpl⟩ := h.mem_slots (List.mem_map_of_mem (f := Slot.erase) hv)
  have hfirst : 4096 ≤ v.start := hpl.first.1
  have := hhas.1
  omega

theorem ContentInv.alloc (h : ContentInv img done s)
    (ha : (hostLoader oom).allocSegment s ph = (.success, s1)) :
    HostInv s1 ∧ ∃ va, (ph.base ≠ 0 → va = ph.base) ∧
      (∀ q, InRange va (va + ph.size) q → s.user q = none) ∧
      s1.user = s.user.onRange va (va + ph.size) fun _ => some (segmentProt ph.flags, zeroPage) := by
  have hsize := ph.size_lt
  have hmod := ph.size_mod
  obtain ⟨hinv, heff⟩ := vmmAllocUser_spec h.inv ph.base_mod
    (show ph.size ≤ 2 ^ 64 - 4096 by omega) (segmentProt ph.flags) memCommit
  obtain ⟨h1, h2⟩ := hostLoader_alloc ha
  rw [if_pos h1] at heff
  obtain ⟨va, -, hva, hfree, huser⟩ := heff
  rw [ph.pageAlignUp_size] at hfree huser
  rw [h2] at hinv huser
  exact ⟨hinv, va, hva, hfree, huser⟩

theorem byte_of_alloc {prot : Prot} {size : Nat}
    (hfree : ∀ q, InRange va (va + size) q → s.user q = none)
    (huser : s1.user = s.user.onRange va (va + size) fun _ => some (prot, zeroPage)) :
    s1.user.byte a = some b ↔
      s.user.byte a = some b ∨ InRange va (va + size) (a / 4096) ∧ b = 0 := by
  rw [huser, UserMap.byte_add]
  by_cases hin : InRange va (va + size) (a / 4096)
  · have hnone : s.user.byte a = none := by rw [UserMap.byte, hfree _ hin, Option.map_none]
    simp only [hin, hnone, if_true, true_and, Option.some.injEq, reduceCtorEq, false_or]
    exact eq_comm
  · simp only [hin, if_false, false_and, or_false]

theorem vmmWriteAspace_success {src : List UInt8} (h : HostInv s) (hva : va < 2 ^ 64)
    (hne : src ≠ []) (hs : s.vmmWriteAspace oom va src = .ok (.success, s')) :
    HostInv s' ∧ (∀ i < src.length, (s.user.byte (va + i)).isSome) ∧
      s'.user = s.user.write va src := by
  rw [Host.vmmWriteAspace, if_neg hne] at hs
  obtain ⟨st, s2, k, hr, hinv, -, hall, hsome, huser⟩ :=
    Host.writeLoop_spec oom h hva src le_rfl
  rw [hs] at hr
  cases ok.inj hr
  rw [hall rfl] at hsome
  rw [hall rfl, List.take_length] at huser
  exact ⟨hinv, hsome, huser⟩

theorem ContentInv.segment (h : ContentInv img done s) (ht : ph.type = ptLoad) (hf : ph.Fits len)
    (hs : (hostLoader oom).segment img s ph = .ok (.success, s')) :
    ContentInv img (done ++ [ph]) s' := by
  have hload := h.load.segment (hostLoader_build oom) ht hs
  have hmem : ∀ x, x ∈ segments (done ++ [ph]) ↔ x ∈ segments done ∨ x = ph := by
    intro x
    simp [segments, ht]
  obtain ⟨s1, ha, hcopy⟩ := Loader.segment_ok hs
  obtain ⟨hinv1, va, hva, hfree, huser⟩ := h.alloc ha
  have hbyte : ∀ {a b}, s1.user.byte a = some b ↔
      s.user.byte a = some b ∨ InRange va (va + ph.size) (a / 4096) ∧ b = 0 :=
    byte_of_alloc hfree huser
  by_cases hf0 : ph.filesz ≠ 0
  · rw [if_pos hf0, hostLoader_writeSegment] at hcopy
    have htop := userCanonicalTop_eq
    have hvaddr := hf.policy.vaddr
    have hlen := imageBytes_length img ph.offset ph.filesz
    have hne : imageBytes img ph.offset ph.filesz ≠ [] := by
      intro he
      rw [he] at hlen
      exact hf0 hlen.symm
    obtain ⟨hinv, hsome, huser'⟩ := vmmWriteAspace_success hinv1 (by omega) hne hcopy
    rw [hlen] at hsome
    -- the segment is not in the first page, which is not mapped
    have hbase : ph.base ≠ 0 := by
      intro h0
      rw [Phdr.base, pageAlignDown_of_lt (by omega)] at h0
      have hlow := hload.byte_low (show ph.vaddr < 4096 by omega)
      have h1 := hsome 0 (by omega)
      rw [Nat.add_zero, ← UserMap.isSome_byte_write _ ph.vaddr ph.vaddr
        (imageBytes img ph.offset ph.filesz), ← huser', hlow] at h1
      cases h1
    obtain ⟨hpos, hsmall, -⟩ := (hostLoader_build oom).alloc ha
    rw [ph.pageAlignUp_size] at hsmall
    obtain ⟨hdown, hstop⟩ := Phdr.stop_eq hf.policy hf.vaddr hpos hsmall
    rw [hva hbase] at hbyte
    have hfilesz := hf.policy.filesz
    have hin : ∀ a, ph.InFile a → InRange ph.base (ph.base + ph.size) (a / 4096) := by
      rintro a ⟨h1, h2⟩
      unfold InRange
      omega
    -- a byte outside of the segment's file bytes is that before the write
    have hkeep : ∀ a, ¬ ph.InFile a → s'.user.byte a = s1.user.byte a := by
      intro a hno
      rw [huser', UserMap.byte_write, hlen]
      unfold Phdr.InFile at hno
      simp only [hno, if_false, Option.map_id']
    refine ⟨hinv, hload, ?_, ?_⟩
    · intro x hx j hj
      rcases (hmem x).1 hx with hx | rfl
      · have hold := h.file x hx j hj
        rw [hkeep _ fun hfile => ?_, hbyte.2 (.inl hold)]
        rw [UserMap.byte, hfree _ (hva hbase ▸ hin _ hfile)] at hold
        cases hold
      · obtain ⟨b, hb⟩ := Option.isSome_iff_exists.1 (hsome j hj)
        rw [huser', UserMap.byte_write, hb, Option.map_some, if_pos (by omega),
          Nat.add_sub_cancel_left, imageBytes_getD hj hf.offset]
    · intro a b hb hno
      rw [hkeep a (hno ph ((hmem ph).2 (.inr rfl)))] at hb
      rcases hbyte.1 hb with hb | ⟨-, rfl⟩
      · exact h.zero a b hb fun x hx => hno x ((hmem x).2 (.inl hx))
      · rfl
  · rw [if_neg hf0] at hcopy
    subst hcopy
    refine ⟨hinv1, hload, ?_, ?_⟩
    · intro x hx j hj
      rcases (hmem x).1 hx with hx | rfl
      · exact hbyte.2 (.inl (h.file x hx j hj))
      · omega
    · intro a b hb hno
      rcases hbyte.1 hb with hb | ⟨-, rfl⟩
      · exact h.zero a b hb fun x hx => hno x ((hmem x).2 (.inl hx))
      · rfl

theorem ContentInv.load_all (h : ContentInv img done s)
    (hf : ∀ ph ∈ phs, ph.type = ptLoad → ph.Fits len)
    (hs : (hostLoader oom).loadSegments img phs s = .ok (.success, s')) :
    ContentInv img (done ++ phs) s' := by
  induction phs generalizing s done with
  | nil =>
    cases ok.inj hs
    rwa [List.append_nil]
  | cons ph phs ih =>
    obtain ⟨hph, hrest⟩ := List.forall_mem_cons.1 hf
    rw [List.append_cons]
    by_cases ht : ph.type = ptLoad
    · obtain ⟨s1, hseg, hload⟩ := (Loader.loadSegments_cons_ok ht).1 hs
      exact ih (h.segment ht (hph ht) hseg) hrest hload
    · rw [(Loader.loadSegments_skip ht phs s).1] at hs
      have hskip : segments (done ++ [ph]) = segments done := by simp [segments, ht]
      refine ih ⟨h.inv, ⟨h.load.vads, h.load.brk, ?_⟩, ?_, ?_⟩ hrest hs
      · rw [hskip]
        exact h.load.placed
      · rw [hskip]
        exact h.file
      · rw [hskip]
        exact h.zero

theorem Aspace.Empty.contentInv (h : s.as.Empty) (img : Nat → UInt8) : ContentInv img [] s := by
  have hno : ∀ v, v ∉ s.as.slots := by
    rw [h.slots]
    intro v hv
    cases hv
  have hids : allIds s.as.slots = [] := by
    rw [h.slots]
    rfl
  refine ⟨⟨⟨?_, fun v hv => absurd hv (hno v), ?_, ?_, ?_, h.aligned⟩, fun v hv => absurd hv (hno v),
    fun v hv => absurd hv (hno v), ?_, ?_⟩, h.loadInv, (fun ph hph => by cases hph), fun a b hb => ?_⟩
  · rw [h.slots]
    exact Nat.zero_le _
  · rw [h.slots]
    exact List.Pairwise.nil
  · rw [h.slots, h.committed]
    rfl
  · rw [h.committed]
    exact Nat.zero_le _
  · rw [hids]
    exact List.nodup_nil
  · rw [hids]
    intro x hx
    cases hx
  · rw [UserMap.byte, Host.user, dataAt_eq_none.2 fun v hv => absurd hv (hno v)] at hb
    cases hb

theorem segmentProt_access (flags : BitVec 32) : segmentProt flags &&& pageNoAccess = 0 := by
  unfold segmentProt
  simp only
  split
  · decide
  · split <;> decide

theorem ContentInv.readable (h : ContentInv img done s) {v : Slot Shadow} (hv : v ∈ s.as.slots) :
    v.prot &&& pageNoAccess = 0 := by
  obtain ⟨ph, -, -, hpl⟩ := h.load.mem_slots (List.mem_map_of_mem (f := Slot.erase) hv)
  have hprot : v.prot = segmentProt ph.flags := hpl.prot
  rw [hprot]
  exact segmentProt_access ph.flags

theorem ContentInv.readsByte (h : ContentInv img done s) (hb : s.user.byte a = some b) :
    s.ReadsByte a b := by
  obtain ⟨x, hx, -⟩ := Option.map_eq_some_iff.1 hb
  obtain ⟨v, hv, hhas, -⟩ := (dataAt_eq_some h.inv.vads.apart).1 hx
  exact h.inv.readsByte hv ((has_page (h.inv.vads.ok v hv) a).1 hhas) (h.readable hv) hb

/-- After a successful `elf_load` into an empty address space, with sums that do not wrap, a byte of a
segment reads as that of the image, and every other byte that is mapped reads zero. -/
theorem elfLoad_contents (oom : Nat → Bool) (s s' : Host) (img : Nat → UInt8) (len : Nat)
    (he : s.as.Empty) (hsums : ∀ ph ∈ phdrs img, ph.type = ptLoad →
      ph.offset + ph.filesz < 2 ^ 64 ∧ ph.vaddr + ph.memsz < 2 ^ 64)
    (hs : (hostLoader oom).elfLoad img s len = .ok (.success, s')) :
    (∀ ph ∈ phdrs img, ph.type = ptLoad → ∀ j < ph.filesz,
      s'.ReadsByte (ph.vaddr + j) (img (ph.offset + j))) ∧
    ∀ v ∈ s'.as.slots, ∀ a, v.start ≤ a → a < v.stop →
      (∀ ph ∈ phdrs img, ph.type = ptLoad → ¬ ph.InFile a) → s'.ReadsByte a 0 := by
  obtain ⟨-, hpol, hload⟩ := Loader.elfLoad_ok hs
  have hfits : ∀ ph ∈ phdrs img, ph.type = ptLoad → ph.Fits len := by
    intro ph hm ht
    exact ⟨policy_of_findSome hpol hm ht, (hsums ph hm ht).1, (hsums ph hm ht).2⟩
  have hinv := (he.contentInv img).load_all hfits hload
  rw [List.nil_append] at hinv
  constructor
  · intro ph hm ht j hj
    exact hinv.readsByte (hinv.file ph (mem_segments.2 ⟨hm, ht⟩) j hj)
  · intro v hv a h1 h2 hno
    have hhas := (has_page (hinv.inv.vads.ok v hv) a).2 ⟨h1, h2⟩
    obtain ⟨b, hb⟩ : ∃ b, s'.user.byte a = some b :=
      ⟨_, by rw [UserMap.byte, Host.user, dataAt_of_mem hinv.inv.vads.apart hv hhas]; rfl⟩
    have hzero := hinv.zero a b hb fun ph hph => hno ph (mem_segments.1 hph).1 (mem_segments.1 hph).2
    rw [hzero] at hb
    exact hinv.readsByte hb

theorem elfLoad_contents_plain :
    ∃ s', (hostLoader fun _ => false).elfLoad (imageOf [Loader.plainSegment]) Host.init 120 =
        .ok (.success, s') ∧ s'.ReadsByte 0x400001 69 := by
  have hphdrs : phdrs (imageOf [Loader.plainSegment]) = [Loader.plainSegment] := by decide +kernel
  obtain ⟨⟨st, s'⟩, hr, rfl⟩ : ∃ r, (hostLoader fun _ => false).elfLoad
      (imageOf [Loader.plainSegment]) Host.init 120 = .ok r ∧ r.1 = .success := by decide +kernel
  refine ⟨s', hr, ?_⟩
  have hread := (elfLoad_contents _ _ _ _ _ (Aspace.init_empty Shadow) (by rw [hphdrs]; decide)
    hr).1 Loader.plainSegment (by rw [hphdrs]; exact List.mem_cons_self) rfl 1 (by decide)
  exact hread

end

end Aegis
