import Aegis.Lib.Apart
import Aegis.Mm.Vad

/-!
# The VAD array, up to the order of its entries

`VadInv` is what both builds keep of an address space. The steps on the VAD array replace an entry by
parts of it (`carve`, `protectSplit`), join two neighbours (`joinVads`) or add one (`addVad`); each
is stated here as a permutation of such a list, and as a rule for `VadInv`.
-/

namespace Aegis

open SwapList Apart

def Vad.pages (v : Vad) : Nat := (v.stop - v.start) / 4096

/-- A VAD is made of pages of the user half. It is empty if its size was so large that rounding it
up gave 0. -/
structure Vad.Ok (v : Vad) : Prop where
  start : v.start % 4096 = 0
  stop : v.stop % 4096 = 0
  le : v.start ≤ v.stop
  top : v.stop ≤ userCanonicalTop + 1

theorem Vad.Ok.pages_mul {v : Vad} (h : v.Ok) : v.start + v.pages * 4096 = v.stop := by
  have h1 := h.start
  have h2 := h.stop
  have h3 := h.le
  unfold Vad.pages
  omega

section
variable {α : Type} {l : List (Slot α)} {i j : Nat} {v u : Slot α}
variable {a b base size stop va : Nat} {st : Status} {l' : List (Slot α)}

/-- The VADs are pairwise disjoint. -/
def AllApart (l : List (Slot α)) : Prop := AllOff (fun v => v.start) (fun v => v.stop) l

def totalPages (l : List (Slot α)) : Nat := (l.map fun v => v.pages).sum

@[simp] theorem totalPages_nil : totalPages ([] : List (Slot α)) = 0 := rfl

@[simp] theorem totalPages_cons (v : Slot α) (l : List (Slot α)) :
    totalPages (v :: l) = v.pages + totalPages l := by simp [totalPages]

@[simp] theorem totalPages_append (l l' : List (Slot α)) :
    totalPages (l ++ l') = totalPages l + totalPages l' := by simp [totalPages]

theorem totalPages_perm (h : l.Perm l') : totalPages l = totalPages l' :=
  (h.map _).sum_eq

/-- The representation invariant. -/
structure VadInv (as : Aspace α) : Prop where
  count : as.slots.length ≤ maxVads
  ok : ∀ v ∈ as.slots, v.Ok
  apart : AllApart as.slots
  committed : as.committedPages = totalPages as.slots
  limit : as.committedPages ≤ userCommitMax / pageSize
  brk : as.brk % 4096 = 0

/-! ## Steps on the array -/

/-- What is left of `v` on both sides of `[base, stop)`. -/
def rests (v : Slot α) (base stop nLeft nRight : Nat) (left right : α) : List (Slot α) :=
  (if nLeft ≠ 0 then [{ v with stop := base, shadow := left }] else []) ++
    if nRight ≠ 0 then [{ v with start := stop, shadow := right }] else []

theorem carve_perm (h : l[i]? = some v) (base stop nLeft nRight : Nat) (left right : α) :
    (carve l i v base stop nLeft nRight left right).Perm
      (rests v base stop nLeft nRight left right ++ l.eraseIdx i) := by
  have hi := (List.getElem?_eq_some_iff.1 h).1
  unfold carve rests
  by_cases hl : nLeft = 0
  · by_cases hr : nRight = 0
    · simpa [hl, hr] using swapRemove_perm hi
    · simpa [hl, hr] using set_perm hi _
  · by_cases hr : nRight = 0
    · simpa [hl, hr] using set_perm hi _
    · simp only [hl, hr, ne_eq, not_false_eq_true, and_self, if_true, List.cons_append]
      refine ((set_perm hi _).append_right _).trans ?_
      exact (List.perm_append_singleton _ _).cons _

theorem protectSplit_perm (h : l[i]? = some v) (base stop : Nat) (prot : Prot)
    (nLeft nRight : Nat) (left mid right : α) :
    (protectSplit l i v base stop prot nLeft nRight left mid right).Perm
      ({ v with start := base, stop, prot, shadow := mid } ::
        rests v base stop nLeft nRight left right ++ l.eraseIdx i) := by
  have hi := (List.getElem?_eq_some_iff.1 h).1
  have hset := set_perm hi { v with start := base, stop, prot, shadow := mid }
  unfold protectSplit rests
  by_cases hl : nLeft = 0
  · by_cases hr : nRight = 0
    · simpa [hl, hr] using hset
    · simp only [hl, hr, ne_eq, not_true_eq_false, not_false_eq_true, if_true, if_false,
        List.nil_append, List.cons_append]
      refine (hset.append_right _).trans ?_
      exact (List.perm_append_singleton _ _).cons _
  · by_cases hr : nRight = 0
    · simp only [hl, hr, ne_eq, not_true_eq_false, not_false_eq_true, if_true, if_false,
        List.append_nil, List.cons_append, List.nil_append]
      refine (hset.append_right _).trans ?_
      exact (List.perm_append_singleton _ _).cons _
    · simp only [hl, hr, ne_eq, not_false_eq_true, if_true, List.cons_append, List.nil_append,
        List.append_assoc]
      refine (hset.append_right _).trans ?_
      exact List.perm_append_comm.cons _

theorem mergePair_some (h : mergePair l = some ((v, i), (u, j))) :
    l[i]? = some v ∧ l[j]? = some u ∧ i ≠ j ∧ v.stop = u.start ∧ v.prot = u.prot ∧
      v.type = u.type ∧ v.committed = u.committed := by
  unfold mergePair at h
  obtain ⟨x, hx, hm⟩ := List.exists_of_findSome?_eq_some h
  obtain ⟨y, hy, he⟩ := Option.map_eq_some_iff.1 hm
  cases he
  have hp := List.find?_some hy
  simp only [decide_eq_true_eq] at hp
  exact ⟨List.mem_zipIdx_iff_getElem?.1 hx,
    List.mem_zipIdx_iff_getElem?.1 (List.mem_of_find?_eq_some hy), hp⟩

/-! ## Rules for the invariant -/

variable {as : Aspace α}

theorem VadInv.replace (h : VadInv as) (hv : as.slots[i]? = some v) {parts : List (Slot α)}
    (hok : ∀ x ∈ parts, x.Ok) (hin : ∀ x ∈ parts, v.start ≤ x.start ∧ x.stop ≤ v.stop)
    (hoff : AllApart parts) (hp : l'.Perm (parts ++ as.slots.eraseIdx i))
    (hlen : l'.length ≤ maxVads) {c : Nat}
    (hc : c + v.pages = as.committedPages + totalPages parts) (hle : c ≤ as.committedPages) :
    VadInv { as with slots := l', committedPages := c } := by
  have hperm := perm_eraseIdx hv
  refine ⟨hlen, fun x hx => ?_, ?_, ?_, hle.trans h.limit, h.brk⟩
  · rcases List.mem_append.1 (hp.mem_iff.1 hx) with hx | hx
    · exact hok x hx
    · exact h.ok x (List.mem_of_mem_eraseIdx hx)
  · exact ((h.apart.perm hperm).refine hoff hin).perm hp.symm
  · have h1 := totalPages_perm hperm
    have h2 := totalPages_perm hp
    have h3 := h.committed
    rw [totalPages_cons] at h1
    rw [totalPages_append] at h2
    show c = totalPages l'
    omega

theorem VadInv.join (h : VadInv as) {rest : List (Slot α)} {m : Slot α}
    (hl : as.slots.Perm (v :: u :: rest)) (hl' : l'.Perm (m :: rest)) (hvu : v.stop = u.start)
    (hstart : m.start = v.start) (hstop : m.stop = u.stop) : VadInv { as with slots := l' } := by
  have hv : v.Ok := h.ok v (hl.mem_iff.2 (by simp))
  have hu : u.Ok := h.ok u (hl.mem_iff.2 (by simp))
  have hrest : ∀ x ∈ rest, x.Ok := fun x hx => h.ok x (hl.mem_iff.2 (by simp [hx]))
  have hm : m.Ok := ⟨hstart ▸ hv.start, hstop ▸ hu.stop, by
    rw [hstart, hstop]
    exact hv.le.trans (hvu ▸ hu.le), hstop ▸ hu.top⟩
  refine ⟨?_, fun x hx => ?_, ?_, ?_, h.limit, h.brk⟩
  · have h1 := hl.length_eq
    have h2 := hl'.length_eq
    have h3 := h.count
    simp only [List.length_cons] at h1 h2
    show l'.length ≤ maxVads
    omega
  · rcases List.mem_cons.1 (hl'.mem_iff.1 hx) with rfl | hx
    · exact hm
    · exact hrest x hx
  · exact ((h.apart.perm hl).join hv.le hu.le hvu hstart hstop).perm hl'.symm
  · have h1 := totalPages_perm hl
    have h2 := totalPages_perm hl'
    have h3 := h.committed
    have h4 := hv.pages_mul
    have h5 := hu.pages_mul
    have h6 := hm.pages_mul
    simp only [totalPages_cons] at h1 h2
    show as.committedPages = totalPages l'
    omega

/-! ## Ranges -/

theorem inside_user (hs : size < 2 ^ 64) (h : outsideUser base size = false) :
    base ≤ userCanonicalTop ∧ u64 (base + size) = base + size ∧
      (size ≠ 0 → base + size ≤ userCanonicalTop + 1) := by
  unfold outsideUser at h
  simp only [decide_eq_false_iff_not, not_or, not_lt, not_and] at h
  obtain ⟨h1, h2, h3⟩ := h
  have htop := userCanonicalTop_eq
  have hu : u64 (base + size) = base + size := by
    have hw : u64 (base + size) = (base + size) % 2 ^ 64 := rfl
    omega
  refine ⟨h1, hu, fun hne => ?_⟩
  have hlt := u64_lt (base + size)
  have hle := h3 hne
  rw [hu, sub64_of_le (by omega) (by omega)] at hle
  omega

theorem pagesBetween_eq (hab : a ≤ b) (hb : b < 2 ^ 64) (hn : (b - a) / 4096 < 2 ^ 32) :
    pagesBetween a b = (b - a) / 4096 := by
  unfold pagesBetween
  rw [sub64_of_le hab hb]
  exact u32_of_lt hn

theorem VadInv.pages_le (h : VadInv as) (hv : v ∈ as.slots) : v.pages ≤ 8192 := by
  obtain ⟨i, hi⟩ := List.getElem?_of_mem hv
  have h1 := totalPages_perm (perm_eraseIdx hi)
  have h2 := h.committed
  have h3 := h.limit
  have h4 : userCommitMax / pageSize = 8192 := by decide
  rw [totalPages_cons] at h1
  omega

theorem VadInv.pagesBetween (h : VadInv as) (hv : v ∈ as.slots) (ha : v.start ≤ a) (hab : a ≤ b)
    (hb : b ≤ v.stop) : pagesBetween a b = (b - a) / 4096 := by
  have h1 := h.pages_le hv
  have h2 := (h.ok v hv).top
  have htop := userCanonicalTop_eq
  have hp : v.pages = (v.stop - v.start) / 4096 := rfl
  refine pagesBetween_eq hab (by omega) (by omega)

theorem freeTarget_ok (h : freeTarget l base size = .ok (v, i, stop)) :
    l[i]? = some v ∧ v.start ≤ base ∧
      (if size = 0 then v.start = base ∧ stop = v.stop
        else stop = u64 (base + size) ∧ base < stop ∧ stop ≤ v.stop) := by
  unfold freeTarget at h
  split at h
  · next hz =>
    split at h
    · cases h
    · next u j hf =>
      cases h
      obtain ⟨hp, hi⟩ := findAt_some hf
      have hp : v.start = base := of_decide_eq_true hp
      exact ⟨hi, hp.le, by rw [if_pos hz]; exact ⟨hp, rfl⟩⟩
  · next hz =>
    unfold vadContainsRange at h
    split at h
    · cases h
    · next u j hf =>
      cases h
      split at hf
      · cases hf
      · next hlt =>
        obtain ⟨hp, hi⟩ := findAt_some hf
        have hp : v.start ≤ base ∧ u64 (base + size) ≤ v.stop := of_decide_eq_true hp
        exact ⟨hi, hp.1, by rw [if_neg hz]; exact ⟨rfl, not_le.1 hlt, hp.2⟩⟩

theorem freeTarget_error (h : freeTarget l base size = .error st) : st ≠ .success := by
  unfold freeTarget at h
  split at h
  · split at h
    · cases h
      decide
    · cases h
  · split at h
    · cases h
      decide
    · cases h

theorem allocTarget_error (h : allocTarget as base size = .error st) : st ≠ .success := by
  unfold allocTarget at h
  simp only at h
  generalize (if base = 0 then as.brk else base) = va0 at h
  split at h
  · cases h
    decide
  · split at h
    · cases h
      decide
    · split at h
      · cases h
        decide
      · split at h
        · cases h
          decide
        · cases h

theorem allocTarget_ok (h : allocTarget as base size = .ok va) :
    va = (if base = 0 then as.brk else base) ∧ outsideUser va size = false ∧
      as.slots.length < maxVads ∧ as.committedPages + size / pageSize ≤ userCommitMax / pageSize ∧
      ∀ x ∈ as.slots, ¬ (va < x.stop ∧ x.start < u64 (va + size)) := by
  unfold allocTarget at h
  simp only at h
  generalize (if base = 0 then as.brk else base) = va0 at h ⊢
  split at h
  · cases h
  · next hout =>
    split at h
    · cases h
    · next hcount =>
      split at h
      · cases h
      · next hlimit =>
        split at h
        · cases h
        · next hover =>
          cases h
          refine ⟨rfl, by simpa using hout, not_le.1 hcount, not_lt.1 hlimit, fun x hx hb => ?_⟩
          exact hover (List.any_eq_true.2 ⟨x, hx, decide_eq_true hb⟩)

theorem vadContainsRange_some (h : vadContainsRange l base stop = some (v, i)) :
    l[i]? = some v ∧ base < stop ∧ v.start ≤ base ∧ stop ≤ v.stop := by
  unfold vadContainsRange at h
  split at h
  · cases h
  · next hlt =>
    obtain ⟨hp, hi⟩ := findAt_some h
    have hp : v.start ≤ base ∧ stop ≤ v.stop := of_decide_eq_true hp
    exact ⟨hi, not_le.1 hlt, hp⟩

/-! ## Parts of a VAD -/

/-- `[base, stop)` is made of pages of `v`. -/
structure Part (v : Vad) (base stop : Nat) : Prop where
  base_aligned : base % 4096 = 0
  stop_aligned : stop % 4096 = 0
  start_le : v.start ≤ base
  le : base ≤ stop
  le_stop : stop ≤ v.stop

section
variable {base stop : Nat} {left right : α}

theorem mem_rests {nLeft nRight : Nat} {x : Slot α}
    (h : x ∈ rests v base stop nLeft nRight left right) :
    nLeft ≠ 0 ∧ x = { v with stop := base, shadow := left } ∨
      nRight ≠ 0 ∧ x = { v with start := stop, shadow := right } := by
  unfold rests at h
  rcases List.mem_append.1 h with h | h
  · split at h
    · next hn => exact .inl ⟨hn, List.mem_singleton.1 h⟩
    · cases h
  · split at h
    · next hn => exact .inr ⟨hn, List.mem_singleton.1 h⟩
    · cases h

theorem Part.mem_rests (h : Part v.toVad base stop) (hv : v.Ok) {x : Slot α}
    (hx : x ∈ rests v base stop ((base - v.start) / 4096) ((v.stop - stop) / 4096) left right) :
    x.Ok ∧ v.start ≤ x.start ∧ x.stop ≤ v.stop ∧ (x.stop ≤ base ∨ stop ≤ x.start) := by
  have h1 := hv.start
  have h2 := hv.stop
  have h3 := hv.top
  have h4 := h.base_aligned
  have h5 := h.stop_aligned
  have h6 := h.start_le
  have h7 := h.le
  have h8 := h.le_stop
  rcases Aegis.mem_rests hx with ⟨hn, rfl⟩ | ⟨hn, rfl⟩
  · exact ⟨⟨h1, h4, show v.start ≤ base by omega, show base ≤ _ by omega⟩, le_rfl,
      show base ≤ v.stop by omega, .inl le_rfl⟩
  · exact ⟨⟨h5, h2, show stop ≤ v.stop by omega, h3⟩, show v.start ≤ stop by omega, le_rfl,
      .inr le_rfl⟩

theorem Part.rests_apart (h : Part v.toVad base stop) (nLeft nRight : Nat) (left right : α) :
    AllApart (rests v base stop nLeft nRight left right) := by
  have hle := h.le
  unfold rests AllApart AllOff
  split
  · split
    · exact List.pairwise_pair.2 (.inl hle)
    · exact List.pairwise_singleton ..
  · split
    · exact List.pairwise_singleton ..
    · exact List.Pairwise.nil

theorem totalPages_rests :
    totalPages (rests v base stop ((base - v.start) / 4096) ((v.stop - stop) / 4096) left right) =
      (base - v.start) / 4096 + (v.stop - stop) / 4096 := by
  unfold rests
  split
  · split
    · simp [Vad.pages]
    · next hr => simp [Vad.pages, not_not.1 hr]
  · next hl =>
    split
    · simp [Vad.pages, not_not.1 hl]
    · next hr => simp [not_not.1 hl, not_not.1 hr]

theorem Part.pages (h : Part v.toVad base stop) (hv : v.Ok) :
    v.pages = (base - v.start) / 4096 + (stop - base) / 4096 + (v.stop - stop) / 4096 := by
  have h1 := hv.start
  have h2 := hv.stop
  have h4 := h.base_aligned
  have h5 := h.stop_aligned
  have h6 := h.start_le
  have h7 := h.le
  have h8 := h.le_stop
  unfold Vad.pages
  omega

theorem length_rests (nLeft nRight : Nat) :
    (rests v base stop nLeft nRight left right).length =
      (if nLeft ≠ 0 then 1 else 0) + if nRight ≠ 0 then 1 else 0 := by
  unfold rests
  split <;> split <;> rfl

end

theorem VadInv.carve (h : VadInv as) (hi : as.slots[i]? = some v) (hpart : Part v.toVad base stop)
    (left right : α)
    (hlen : as.slots.length + (if (base - v.start) / 4096 ≠ 0 ∧ (v.stop - stop) / 4096 ≠ 0 then 1
      else 0) ≤ maxVads) :
    VadInv { as with
      slots := Aegis.carve as.slots i v base stop ((base - v.start) / 4096)
        ((v.stop - stop) / 4096) left right
      committedPages := uncommit as.committedPages ((stop - base) / 4096) } := by
  have hv : v ∈ as.slots := List.mem_of_getElem? hi
  have hok := h.ok v hv
  have hperm := carve_perm hi base stop ((base - v.start) / 4096) ((v.stop - stop) / 4096) left right
  have hpages := hpart.pages hok
  have htot := totalPages_perm (perm_eraseIdx hi)
  rw [totalPages_cons] at htot
  have hc := h.committed
  refine h.replace hi (fun x hx => (hpart.mem_rests hok hx).1)
    (fun x hx => ⟨(hpart.mem_rests hok hx).2.1, (hpart.mem_rests hok hx).2.2.1⟩)
    (hpart.rests_apart _ _ _ _) hperm ?_ ?_ ?_
  · have hl := hperm.length_eq
    rw [List.length_append, length_rests, List.length_eraseIdx_of_lt
      (List.getElem?_eq_some_iff.1 hi).1] at hl
    have hpos : 0 < as.slots.length := List.length_pos_of_mem hv
    rw [hl]
    by_cases h1 : (base - v.start) / 4096 = 0
    · by_cases h2 : (v.stop - stop) / 4096 = 0
      · simp only [h1, h2, ne_eq, not_true_eq_false, if_false] at hlen ⊢
        omega
      · simp only [h1, h2, ne_eq, not_true_eq_false, not_false_eq_true, if_false, if_true] at hlen ⊢
        have := h.count
        omega
    · by_cases h2 : (v.stop - stop) / 4096 = 0
      · simp only [h1, h2, ne_eq, not_true_eq_false, not_false_eq_true, if_false, if_true] at hlen ⊢
        have := h.count
        omega
      · simp only [h1, h2, ne_eq, not_false_eq_true, and_self, if_true] at hlen ⊢
        omega
  · rw [totalPages_rests]
    unfold uncommit
    split <;> omega
  · unfold uncommit
    split <;> omega

theorem VadInv.protectSplit (h : VadInv as) (hi : as.slots[i]? = some v)
    (hpart : Part v.toVad base stop) (prot : Prot) (left mid right : α)
    (hlen : as.slots.length + ((if (base - v.start) / 4096 ≠ 0 then 1 else 0) +
      (if (v.stop - stop) / 4096 ≠ 0 then 1 else 0)) ≤ maxVads) :
    VadInv { as with
      slots := Aegis.protectSplit as.slots i v base stop prot ((base - v.start) / 4096)
        ((v.stop - stop) / 4096) left mid right } := by
  have hv : v ∈ as.slots := List.mem_of_getElem? hi
  have hok := h.ok v hv
  have hperm := protectSplit_perm hi base stop prot ((base - v.start) / 4096)
    ((v.stop - stop) / 4096) left mid right
  have hmid : ({ v with start := base, stop, prot, shadow := mid } : Slot α).Ok :=
    ⟨hpart.base_aligned, hpart.stop_aligned, hpart.le, hpart.le_stop.trans hok.top⟩
  refine h.replace hi (fun x hx => ?_) (fun x hx => ?_) ?_ hperm ?_ ?_ le_rfl
  · rcases List.mem_cons.1 hx with rfl | hx
    · exact hmid
    · exact (hpart.mem_rests hok hx).1
  · rcases List.mem_cons.1 hx with rfl | hx
    · exact ⟨hpart.start_le, hpart.le_stop⟩
    · exact ⟨(hpart.mem_rests hok hx).2.1, (hpart.mem_rests hok hx).2.2.1⟩
  · refine allOff_cons.2 ⟨fun x hx => ?_, hpart.rests_apart _ _ _ _⟩
    rcases (hpart.mem_rests hok hx).2.2.2 with hoff | hoff
    · exact .inr (.inl hoff)
    · exact .inl hoff
  · have hl := hperm.length_eq
    rw [List.length_append, List.length_cons, length_rests, List.length_eraseIdx_of_lt
      (List.getElem?_eq_some_iff.1 hi).1] at hl
    have hpos : 0 < as.slots.length := List.length_pos_of_mem hv
    rw [hl]
    omega
  · have hpages := hpart.pages hok
    rw [totalPages_cons, totalPages_rests]
    show _ + v.pages = _ + ((stop - base) / 4096 + _)
    omega

theorem VadInv.addVad (h : VadInv as) (ht : allocTarget as base size = .ok va)
    (hbase : base % 4096 = 0) (hsize : size % 4096 = 0) (hlt : size < 2 ^ 64) (prot : Prot)
    (type : Nat) (shadow : α) : VadInv (as.addVad base va size prot type shadow) := by
  obtain ⟨rfl, hout, hcount, hlimit, hover⟩ := allocTarget_ok ht
  have hva : (if base = 0 then as.brk else base) % 4096 = 0 := by
    split
    · exact h.brk
    · exact hbase
  generalize (if base = 0 then as.brk else base) = va at *
  obtain ⟨hle, hu, htop⟩ := inside_user hlt hout
  have htop : va + size ≤ userCanonicalTop + 1 := by
    by_cases hz : size = 0
    · omega
    · exact htop hz
  have hok : (⟨va, u64 (va + size), prot, type, 1⟩ : Vad).Ok := by
    rw [hu]
    exact ⟨hva, by simp only; omega, by simp only; omega, htop⟩
  have hpages : (⟨va, u64 (va + size), prot, type, 1⟩ : Vad).pages = size / 4096 := by
    rw [hu, Vad.pages]
    simp
  have hperm : (as.addVad base va size prot type shadow).slots.Perm
      (⟨⟨va, u64 (va + size), prot, type, 1⟩, shadow⟩ :: as.slots) :=
    List.perm_append_singleton _ _
  refine ⟨?_, fun x hx => ?_, ?_, ?_, hlimit, ?_⟩
  · rw [hperm.length_eq, List.length_cons]
    exact hcount
  · rcases List.mem_cons.1 (hperm.mem_iff.1 hx) with rfl | hx
    · exact hok
    · exact h.ok x hx
  · refine AllOff.perm (allOff_cons.2 ⟨fun x hx => ?_, h.apart⟩) hperm.symm
    have hno := hover x hx
    have hle := (h.ok x hx).le
    show u64 (va + size) ≤ x.start ∨ x.stop ≤ va ∨ _ ∨ _
    omega
  · rw [totalPages_perm hperm, totalPages_cons]
    show as.committedPages + size / 4096 = _
    rw [h.committed, hpages, Nat.add_comm]
  · show (if base = 0 then u64 (va + size) else as.brk) % 4096 = 0
    rw [hu]
    split
    · omega
    · exact h.brk

/-! ## The numbers of pages -/

/-- `vmm_free_user` takes whole pages out of one VAD, and counts them right. -/
theorem VadInv.freeParts (h : VadInv as) (hb : base % 4096 = 0) (hs : size % 4096 = 0)
    (hlt : size < 2 ^ 64) (hin : outsideUser base size = false)
    (ht : freeTarget as.slots base size = .ok (v, i, stop)) :
    as.slots[i]? = some v ∧ Part v.toVad base stop ∧
    (if size = 0 then 0 else Aegis.pagesBetween v.start base) = (base - v.start) / 4096 ∧
    (if size = 0 then Aegis.pagesBetween v.start v.stop else u32 (size / pageSize)) =
      (stop - base) / 4096 ∧
    (if size = 0 then 0 else Aegis.pagesBetween stop v.stop) = (v.stop - stop) / 4096 := by
  obtain ⟨hi, hle, hcase⟩ := freeTarget_ok ht
  have hv := List.mem_of_getElem? hi
  have hok := h.ok v hv
  have h1 := hok.start
  have h2 := hok.stop
  have h3 := hok.le
  by_cases hz : size = 0
  · simp only [hz, if_true] at hcase ⊢
    obtain ⟨rfl, rfl⟩ := hcase
    refine ⟨hi, ⟨h1, h2, le_rfl, h3, le_rfl⟩, by simp, ?_, by simp⟩
    exact h.pagesBetween hv le_rfl h3 le_rfl
  · simp only [hz, if_false] at hcase ⊢
    obtain ⟨rfl, hbs, hsv⟩ := hcase
    obtain ⟨-, hu, -⟩ := inside_user hlt hin
    rw [hu] at hbs hsv ⊢
    refine ⟨hi, ⟨hb, by omega, hle, hbs.le, hsv⟩, h.pagesBetween hv le_rfl hle (by omega), ?_,
      h.pagesBetween hv (by omega) hsv le_rfl⟩
    have h4 := h.pages_le hv
    have h5 : v.pages = (v.stop - v.start) / 4096 := rfl
    rw [Nat.add_sub_cancel_left]
    exact u32_of_lt (by show size / 4096 < _; omega)

/-- A range of whole pages of user memory in the VAD `v` at index `i`. -/
structure Contained (l : List (Slot α)) (base size : Nat) (v : Slot α) (i : Nat) : Prop where
  aligned : base % 4096 = 0
  pages : size % 4096 = 0
  lt : size < 2 ^ 64
  inside : outsideUser base size = false
  target : vadContainsRange l base (u64 (base + size)) = some (v, i)

theorem Contained.pos {l : List (Slot α)} (hc : Contained l base size v i) : 0 < size := by
  have hlt := (vadContainsRange_some hc.target).2.1
  rw [(inside_user hc.lt hc.inside).2.1] at hlt
  omega

theorem VadInv.protectParts (h : VadInv as) (hc : Contained as.slots base size v i) :
    as.slots[i]? = some v ∧ Part v.toVad base (base + size) ∧ u64 (base + size) = base + size ∧
    Aegis.pagesBetween v.start base = (base - v.start) / 4096 ∧
    u32 (size / pageSize) = (base + size - base) / 4096 ∧
    Aegis.pagesBetween (base + size) v.stop = (v.stop - (base + size)) / 4096 := by
  obtain ⟨hb, hs, hlt, hin, ht⟩ := hc
  obtain ⟨hi, hbs, hle, hsv⟩ := vadContainsRange_some ht
  obtain ⟨-, hu, -⟩ := inside_user hlt hin
  rw [hu] at hbs hsv
  have hv := List.mem_of_getElem? hi
  have h4 := h.pages_le hv
  have h5 : v.pages = (v.stop - v.start) / 4096 := rfl
  refine ⟨hi, ⟨hb, by omega, hle, hbs.le, hsv⟩, hu, h.pagesBetween hv le_rfl hle (by omega), ?_,
    h.pagesBetween hv (by omega) hsv le_rfl⟩
  rw [Nat.add_sub_cancel_left]
  exact u32_of_lt (by show size / 4096 < _; omega)

theorem Aspace.init_inv (α : Type) : VadInv (Aspace.init α) :=
  ⟨Nat.zero_le _, (fun _ hv => by cases hv), List.Pairwise.nil, rfl, Nat.zero_le _,
    show userHeapBase % 4096 = 0 by decide⟩

end

end Aegis
