import Aegis.Fs.Elf
import Aegis.Mm.Proof.Builds
import Aegis.Mm.Proof.VmmRun

/-!
# What `elf_load` reads and maps

A load that succeeds is a chain of steps, one for each segment; what holds of the
VADs and of the pages is shown for one step and follows for the chain.
-/

namespace Aegis

open Outcome

variable {len : Nat} {ph : Phdr} {p : Prop} {a st : Status} {img : Nat → UInt8} {x : Option Status}

/-! ## Headers -/

/-- What `elf_load` asks of every segment. -/
structure Phdr.Policy (ph : Phdr) (len : Nat) : Prop where
  vaddr : ph.vaddr ≤ userCanonicalTop
  filesz : ph.filesz ≤ ph.memsz
  offset : u64 (ph.offset + ph.filesz) ≤ len

theorem phdrPolicy_load (h : phdrPolicy len ph = none) (ht : ph.type = ptLoad) : ph.Policy len := by
  unfold phdrPolicy at h
  rw [if_neg (by rw [ht]; decide), if_neg (by rw [ht]; decide), if_neg (not_not.2 ht)] at h
  split at h
  · cases h
  split at h
  · cases h
  · next hv =>
    split at h
    · cases h
    · next hf =>
      split at h
      · cases h
      · next ho => exact ⟨not_lt.1 hv, not_lt.1 hf, not_lt.1 ho⟩

theorem policy_of_findSome {phs : List Phdr} (h : phs.findSome? (phdrPolicy len) = none)
    (hm : ph ∈ phs) (ht : ph.type = ptLoad) :
    ph.Policy len := phdrPolicy_load (List.findSome?_eq_none_iff.1 h ph hm) ht

theorem ite_some_eq_none [Decidable p] : (if p then some a else x) = none ↔ ¬ p ∧ x = none := by
  by_cases hp : p <;> simp [hp]

theorem ne_of_ite_some [Decidable p] {b : Status} (ha : a ≠ b) (hx : x = some st → st ≠ b) :
    (if p then some a else x) = some st → st ≠ b := by
  by_cases hp : p
  · rw [if_pos hp]
    intro h
    rwa [← Option.some.inj h]
  · rwa [if_neg hp]

theorem ehdrPolicy_table (h : ehdrPolicy img len = none) :
    u64 (readLe img 32 8 + readLe img 56 2 * sizeofPhdr) ≤ len := by
  unfold ehdrPolicy at h
  simp only [ite_some_eq_none] at h
  obtain ⟨-, -, -, -, -, -, -, ht, -⟩ := h
  exact not_lt.1 ht

theorem ehdrPolicy_ne : ehdrPolicy img len = some st → st ≠ .success := by
  unfold ehdrPolicy
  iterate 9 refine ne_of_ite_some (by decide) ?_
  intro h
  cases h

theorem phdrPolicy_ne (h : phdrPolicy len ph = some st) : st ≠ .success := by
  revert h
  unfold phdrPolicy
  refine ne_of_ite_some (by decide) ?_
  split
  · refine ne_of_ite_some (by decide) ?_
    intro h
    cases h
  · split
    · intro h
      cases h
    · iterate 4 refine ne_of_ite_some (by decide) ?_
      intro h
      cases h

/-! ## Reads -/

namespace Loader

section
variable {τ : Type} {L : Loader τ} {img : Nat → UInt8} {s s' : τ} {ph : Phdr} {phs : List Phdr}
  {len : Nat}

/-- One round of the loop. -/
def segment (L : Loader τ) (img : Nat → UInt8) (s : τ) (ph : Phdr) : Outcome (Status × τ) :=
  if ntSuccess (L.allocSegment s ph).1 = true ∧ ph.filesz ≠ 0 then
    L.writeSegment img (L.allocSegment s ph).2 ph
  else .ok (L.allocSegment s ph)

theorem loadSegments_skip (ht : ph.type ≠ ptLoad) (phs : List Phdr) (s : τ) :
    L.loadSegments img (ph :: phs) s = L.loadSegments img phs s ∧
      L.segmentReads img (ph :: phs) s = L.segmentReads img phs s :=
  ⟨if_pos ht, if_pos ht⟩

theorem loadSegments_load (ht : ph.type = ptLoad) (phs : List Phdr) (s : τ) :
    L.loadSegments img (ph :: phs) s = (do
      let b ← L.segment img s ph
      if ntSuccess b.1 = false then .ok b else L.loadSegments img phs b.2) := by
  rw [loadSegments, if_neg (not_not.2 ht), segment]
  cases ha : ntSuccess (L.allocSegment s ph).1
  · simp [ha, ok_bind]
  · by_cases hf : ph.filesz ≠ 0
    · simp [ha, hf]
    · simp [ha, hf, ok_bind]

theorem segmentReads_load (ht : ph.type = ptLoad) (phs : List Phdr) (s : τ) :
    L.segmentReads img (ph :: phs) s =
      (if ntSuccess (L.allocSegment s ph).1 = true ∧ ph.filesz ≠ 0 then
        [(ph.offset, ph.filesz)] else []) ++
      match L.segment img s ph with
      | .ok b => if ntSuccess b.1 = false then [] else L.segmentReads img phs b.2
      | _ => [] := by
  rw [segmentReads, if_neg (not_not.2 ht), segment]
  cases ha : ntSuccess (L.allocSegment s ph).1
  · simp [ha]
  · by_cases hf : ph.filesz ≠ 0
    · simp only [ha, hf, Bool.true_eq_false, if_false, ne_eq, not_false_eq_true, and_self, if_true]
      cases L.writeSegment img (L.allocSegment s ph).2 ph <;> rfl
    · simp [ha, hf]

theorem segment_ok (h : L.segment img s ph = .ok (.success, s')) :
    ∃ s1, L.allocSegment s ph = (.success, s1) ∧
      if ph.filesz ≠ 0 then L.writeSegment img s1 ph = .ok (.success, s') else s' = s1 := by
  unfold segment at h
  by_cases hst : ntSuccess (L.allocSegment s ph).1 = true
  · have ha : L.allocSegment s ph = (.success, (L.allocSegment s ph).2) := by
      rw [← (ntSuccess_iff _).1 hst]
    refine ⟨(L.allocSegment s ph).2, ha, ?_⟩
    by_cases hf : ph.filesz ≠ 0
    · rw [if_pos ⟨hst, hf⟩] at h
      rwa [if_pos hf]
    · rw [if_neg fun hc => hf hc.2] at h
      rw [if_neg hf, ok.inj h]
  · rw [if_neg fun hc => hst hc.1] at h
    rw [ok.inj h] at hst
    exact absurd rfl hst

theorem loadSegments_cons_ok (ht : ph.type = ptLoad) :
    L.loadSegments img (ph :: phs) s = .ok (.success, s') ↔
      ∃ s1, L.segment img s ph = .ok (.success, s1) ∧
        L.loadSegments img phs s1 = .ok (.success, s') := by
  rw [loadSegments_load ht, bind_eq_ok]
  constructor
  · rintro ⟨⟨st, s1⟩, hb, hrest⟩
    simp only at hrest
    split at hrest
    · next hst =>
      cases ok.inj hrest
      cases hst
    · next hst =>
      rw [Bool.not_eq_false, ntSuccess_iff] at hst
      rw [hst] at hb
      exact ⟨s1, hb, hrest⟩
  · rintro ⟨s1, hb, hrest⟩
    exact ⟨(.success, s1), hb, hrest⟩

theorem elfLoad_ok (h : L.elfLoad img s len = .ok (.success, s')) :
    ehdrPolicy img len = none ∧ (phdrs img).findSome? (phdrPolicy len) = none ∧
      L.loadSegments img (phdrs img) s = .ok (.success, s') := by
  unfold elfLoad at h
  cases he : ehdrPolicy img len with
  | some st =>
    rw [he] at h
    cases ok.inj h
    exact absurd rfl (ehdrPolicy_ne he)
  | none =>
    rw [he] at h
    cases hp : (phdrs img).findSome? (phdrPolicy len) with
    | some st =>
      simp only [hp] at h
      cases ok.inj h
      obtain ⟨ph, -, hph⟩ := List.exists_of_findSome?_eq_some hp
      exact absurd rfl (phdrPolicy_ne hph)
    | none =>
      simp only [hp] at h
      exact ⟨rfl, rfl, h⟩

theorem mem_segmentReads {r : Nat × Nat} :
    r ∈ L.segmentReads img phs s ↔ ∃ pre ph post, phs = pre ++ ph :: post ∧
      L.Copies img s pre ph ∧ r = (ph.offset, ph.filesz) := by
  induction phs generalizing s with
  | nil =>
    simp [segmentReads]
  | cons ph phs ih =>
    -- a copy is that of the first header, or one behind it
    have hsplit : (∃ pre ph' post, ph :: phs = pre ++ ph' :: post ∧ L.Copies img s pre ph' ∧
          r = (ph'.offset, ph'.filesz)) ↔
        (L.Copies img s [] ph ∧ r = (ph.offset, ph.filesz)) ∨
        ∃ pre ph' post, phs = pre ++ ph' :: post ∧ L.Copies img s (ph :: pre) ph' ∧
          r = (ph'.offset, ph'.filesz) := by
      constructor
      · rintro ⟨pre, ph', post, he, hc, hr⟩
        cases pre with
        | nil =>
          cases he
          exact .inl ⟨hc, hr⟩
        | cons x pre =>
          cases he
          exact .inr ⟨pre, ph', post, rfl, hc, hr⟩
      · rintro (⟨hc, hr⟩ | ⟨pre, ph', post, rfl, hc, hr⟩)
        · exact ⟨[], ph, phs, rfl, hc, hr⟩
        · exact ⟨ph :: pre, ph', post, rfl, hc, hr⟩
    rw [hsplit]
    by_cases ht : ph.type = ptLoad
    · have hfirst : L.Copies img s [] ph ↔
          ntSuccess (L.allocSegment s ph).1 = true ∧ ph.filesz ≠ 0 := by
        constructor
        · rintro ⟨-, hf, s1, s2, h1, h2⟩
          cases ok.inj h1
          exact ⟨by rw [h2]; rfl, hf⟩
        · rintro ⟨hs, hf⟩
          refine ⟨ht, hf, s, (L.allocSegment s ph).2, rfl, ?_⟩
          rw [← (ntSuccess_iff _).1 hs]
      have hnext : ∀ {s1}, L.segment img s ph = .ok (.success, s1) → ∀ pre ph',
          (L.Copies img s (ph :: pre) ph' ↔ L.Copies img s1 pre ph') := by
        intro s1 hseg pre ph'
        unfold Copies
        simp only [loadSegments_cons_ok ht, hseg, ok.injEq, Prod.mk.injEq, true_and,
          exists_eq_left']
      have hstop : (∀ s1, L.segment img s ph ≠ .ok (.success, s1)) → ∀ pre ph',
          ¬ L.Copies img s (ph :: pre) ph' := by
        rintro hno pre ph' ⟨-, -, s1, s2, h1, -⟩
        obtain ⟨s3, h3, -⟩ := (loadSegments_cons_ok ht).1 h1
        exact hno s3 h3
      rw [segmentReads_load ht, List.mem_append]
      apply or_congr
      · split
        · next hc => simp [hfirst.2 hc]
        · next hc => simp [mt hfirst.1 hc]
      · by_cases hseg : ∃ s1, L.segment img s ph = .ok (.success, s1)
        · obtain ⟨s1, hseg⟩ := hseg
          rw [hseg]
          simp only [hnext hseg]
          exact ih
        · have hno := not_exists.1 hseg
          have hnil : (match L.segment img s ph with
              | .ok b => if ntSuccess b.1 = false then [] else L.segmentReads img phs b.2
              | _ => []) = [] := by
            split
            · next b hb =>
              apply if_pos
              by_contra hst
              rw [Bool.not_eq_false, ntSuccess_iff] at hst
              exact hno b.2 (by rw [hb, ← hst])
            · rfl
          rw [hnil]
          simp only [hstop hno, false_and, and_false, exists_false, List.not_mem_nil]
    · have hcopy : ∀ pre ph', L.Copies img s (ph :: pre) ph' ↔ L.Copies img s pre ph' := by
        intro pre ph'
        unfold Copies
        rw [(loadSegments_skip ht pre s).1]
      have hfirst : ¬ L.Copies img s [] ph := fun hc => ht hc.1
      simp only [(loadSegments_skip ht phs s).2, hcopy, hfirst, false_and, false_or]
      exact ih

/-- `elf_load` reads inside of the image exactly if the sums that it checks do not wrap. -/
theorem elfReads_inside_iff (L : Loader τ) (img : Nat → UInt8) (s : τ) {len : Nat}
    (hlen : len < 2 ^ 64) :
    (∀ r ∈ L.elfReads img s len, r.1 + r.2 ≤ len) ↔ L.SumsFit img s len := by
  unfold elfReads
  cases he : ehdrPolicy img len with
  | some st =>
    have hne : ehdrPolicy img len ≠ none := by simp [he]
    exact iff_of_true (fun r hr => by cases hr) ⟨fun h => absurd h hne, fun h => absurd h hne⟩
  | none =>
    have htable := ehdrPolicy_table he
    -- the header table
    have hfits : readLe img 32 8 + readLe img 56 2 * sizeofPhdr ≤ len ↔
        readLe img 32 8 + readLe img 56 2 * sizeofPhdr < 2 ^ 64 :=
      ⟨fun h => h.trans_lt hlen, fun h => by rwa [u64_of_lt h] at htable⟩
    cases hp : (phdrs img).findSome? (phdrPolicy len) with
    | some st =>
      simp only [List.forall_mem_singleton]
      refine ⟨fun h => ⟨fun _ => hfits.1 h, fun _ hn => by simp [hp] at hn⟩,
        fun h => hfits.2 (h.table he)⟩
    | none =>
      simp only [List.forall_mem_cons]
      constructor
      · rintro ⟨h, hall⟩
        refine ⟨fun _ => hfits.1 h, fun _ _ pre ph post heq hc => ?_⟩
        exact (hall _ (mem_segmentReads.2 ⟨pre, ph, post, heq, hc, rfl⟩)).trans_lt hlen
      · intro h
        refine ⟨hfits.2 (h.table he), fun r hr => ?_⟩
        obtain ⟨pre, ph, post, heq, hc, rfl⟩ := mem_segmentReads.1 hr
        have hlt := h.segments he hp pre ph post heq hc
        have hpol := policy_of_findSome hp (by rw [heq]; simp) hc.1
        have hle := hpol.offset
        rwa [u64_of_lt hlt] at hle

end

/-- A segment with the bytes of the headers. -/
def plainSegment : Phdr := ⟨ptLoad, 5#32, 0, 0x400000, 120, 120⟩

/-- A segment whose bytes begin 16 bytes before the image, as an offset modulo 2⁶⁴. -/
def wrapSegment : Phdr := ⟨ptLoad, 5#32, 2 ^ 64 - 16, 0x400000, 32, 32⟩

theorem elfReads_inside_iff_plain :
    (hostLoader fun _ => false).elfReads (imageOf [plainSegment]) Host.init 120 =
      [(64, 56), (0, 120)] ∧
    (hostLoader fun _ => false).SumsFit (imageOf [plainSegment]) Host.init 120 := by
  have hreads : (hostLoader fun _ => false).elfReads (imageOf [plainSegment]) Host.init 120 =
      [(64, 56), (0, 120)] := by decide +kernel
  refine ⟨hreads, (elfReads_inside_iff _ _ _ (by decide)).1 ?_⟩
  rw [hreads]
  decide

theorem elfReads_outside :
    ¬ ∀ r ∈ (hostLoader fun _ => false).elfReads (imageOf [wrapSegment]) Host.init 120,
      r.1 + r.2 ≤ 120 := by
  have hreads : (hostLoader fun _ => false).elfReads (imageOf [wrapSegment]) Host.init 120 =
      [(64, 56), (2 ^ 64 - 16, 32)] := by decide +kernel
  rw [hreads]
  decide

end Loader

end Aegis
