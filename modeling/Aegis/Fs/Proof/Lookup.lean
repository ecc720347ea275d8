import Aegis.Fs.Lookup
import Aegis.Fs.Proof.VfsRun

/-!
# What `walk` finds

In a tree `walk` follows the pieces of the components. They are the components when every one of
them fits into `comp`; a longer component is the name of no entry, and its pieces may be.

When `walk` fails, `vfs_open` uses its locals unless the disposition is `FILE_OPEN`.
-/

namespace Aegis

open Outcome

variable {c rest : Name}

/-! ## Components and their pieces -/

theorem pieces_short (hc : c ≠ []) (hl : c.length < nameMax) : pieces c = [c] := by
  have hpos := List.length_pos_iff.2 hc
  simp only [nameMax] at hl
  have hn : (c.length + (nameMax - 2)) / (nameMax - 1) = 1 := by
    simp only [nameMax]
    omega
  have ht : c.take (nameMax - 1) = c := List.take_of_length_le (by simp only [nameMax]; omega)
  simp [pieces, hn, ht]

theorem pieces_long (hl : nameMax ≤ c.length) :
    pieces c = c.take (nameMax - 1) :: pieces (c.drop (nameMax - 1)) := by
  simp only [nameMax] at hl
  have hn : (c.length + (nameMax - 2)) / (nameMax - 1) =
      (c.length - (nameMax - 1) + (nameMax - 2)) / (nameMax - 1) + 1 := by
    simp only [nameMax]
    omega
  rw [pieces, pieces, hn, List.range_succ_eq_map, List.map_cons, List.map_map, List.length_drop]
  congr 1
  apply List.map_congr_left
  intro i _
  simp only [Function.comp, List.drop_drop, Nat.mul_succ, Nat.add_comm]

theorem pieces_ne_nil (hc : c ≠ []) : pieces c ≠ [] := by
  by_cases hl : c.length < nameMax
  · simp [pieces_short hc hl]
  · simp [pieces_long (not_lt.1 hl)]

theorem cutComponent_eq {k : Nat} (hs : slash ∉ c) (hr : rest = [] ∨ rest.head? = some slash) :
    cutComponent k (c ++ rest) = (c.take k, c.drop k ++ rest) := by
  induction k generalizing c with
  | zero => simp [cutComponent]
  | succ k ih =>
    cases c with
    | nil =>
      cases rest with
      | nil => simp [cutComponent]
      | cons x rest =>
        obtain rfl : x = slash := by simpa using hr
        simp [cutComponent]
    | cons x c =>
      obtain ⟨hx, hc⟩ := not_or.1 (mt List.mem_cons.2 hs)
      simp [cutComponent, Ne.symm hx, ih hc]

theorem skipSlashes_eq (hc : c ≠ []) (hs : slash ∉ c) (rest : Name) :
    skipSlashes (c ++ rest) = c ++ rest := by
  cases c with
  | nil => exact absurd rfl hc
  | cons x c =>
    have hx : x ≠ slash := fun hx => hs (hx ▸ List.mem_cons_self)
    simp [skipSlashes, hx]

theorem intercalate_two (c x : Name) (cs : List Name) :
    [slash].intercalate (c :: x :: cs) = c ++ slash :: [slash].intercalate (x :: cs) := by
  simp [List.intercalate]

theorem intercalate_rest (cs : List Name) : ∃ rest : Name,
    (rest = [] ∨ rest.head? = some slash) ∧ ∀ c, [slash].intercalate (c :: cs) = c ++ rest := by
  cases cs with
  | nil => exact ⟨[], .inl rfl, fun c => by simp [List.intercalate]⟩
  | cons x cs =>
    exact ⟨slash :: [slash].intercalate (x :: cs), .inr rfl, fun c => intercalate_two c x cs⟩

theorem nextComponent_short (hs : slash ∉ c) (hl : c.length < nameMax)
    (hr : rest = [] ∨ rest.head? = some slash) :
    nextComponent (c ++ rest) = (c, rest.head? == some slash, rest.tail) := by
  have hk : c.length ≤ nameMax - 1 := Nat.le_pred_of_lt hl
  simp only [nextComponent, cutComponent_eq hs hr, List.take_of_length_le hk,
    List.drop_of_length_le hk, List.nil_append]
  obtain rfl | hr := hr
  · rfl
  · rw [if_pos hr]

theorem nextComponent_long (hs : slash ∉ c) (hl : nameMax ≤ c.length)
    (hr : rest = [] ∨ rest.head? = some slash) :
    nextComponent (c ++ rest) = (c.take (nameMax - 1), false, c.drop (nameMax - 1) ++ rest) := by
  obtain ⟨x, d, hd⟩ := List.exists_cons_of_ne_nil (l := c.drop (nameMax - 1)) (by
    simp only [ne_eq, List.drop_eq_nil_iff, nameMax] at *
    omega)
  have hx : x ≠ slash := by
    rintro rfl
    exact hs (List.mem_of_mem_drop (hd ▸ List.mem_cons_self))
  simp [nextComponent, cutComponent_eq hs hr, hd, hx]

namespace Vfs

variable {s : Vfs}
variable {cur d k v : Nat} {b : Bool} {p : Name} {st : Status} {r : Status × Option Nat × Vfs}

/-! ## Entries -/

theorem Shape.vnChild_iff (h : s.Shape) {c : Nat} {name : Name} :
    s.vnChild d name = some c ↔ c ∈ (s.vnode d).children ∧ (s.vnode c).name = name := by
  refine ⟨vnChild_mem, ?_⟩
  rintro ⟨hc, rfl⟩
  cases hn : s.vnChild d (s.vnode c).name with
  | none => exact absurd rfl (vnChild_none hn c hc)
  | some c' => rw [h.unique d c' (vnChild_mem hn).1 c hc (vnChild_mem hn).2]

theorem Shape.follows_short (h : s.Shape) {names : List Name} (hf : s.Follows d names v) :
    ∀ c ∈ names, c.length < nameMax := by
  induction names generalizing d with
  | nil => simp
  | cons name names ih =>
    obtain ⟨c, hc, rfl, hf⟩ := hf
    exact List.forall_mem_cons.2 ⟨(h.names d c hc).2, ih hf⟩

/-! ## The walk -/

/-- The loop of `walk` ends at `v`. -/
def Reaches (s : Vfs) (lastMustExist : Bool) (k cur : Nat) (p : Name) (v : Nat) : Prop :=
  ∃ w, s.walkLoop lastMustExist k cur p = .ok (.success, some w) ∧ w.leaf = some v

theorem Shape.reaches_next (h : s.Shape) (b : Bool) (cur : Nat) {y : Name} {ys : List Name}
    (hy : y ≠ [] ∧ slash ∉ y) (hq : (nextComponent p).2.2 = [slash].intercalate (y :: ys))
    (ih : ∀ n, s.Reaches b k n ([slash].intercalate (y :: ys)) v ↔
      s.Follows n ((y :: ys).flatMap pieces) v) :
    s.Reaches b (k + 1) cur p v ↔
      s.Follows cur ((nextComponent p).1 :: (y :: ys).flatMap pieces) v := by
  obtain ⟨rest, -, hrest⟩ := intercalate_rest ys
  have hskip : skipSlashes ([slash].intercalate (y :: ys)) = [slash].intercalate (y :: ys) := by
    rw [hrest]
    exact skipSlashes_eq hy.1 hy.2 rest
  have hnil : [slash].intercalate (y :: ys) ≠ [] := by simp [hrest, hy.1]
  simp only [Reaches, walkLoop, hq, hnil, false_and, if_false, hskip, Follows]
  cases hn : s.vnChild cur (nextComponent p).1 with
  | none =>
    have hno := vnChild_none hn
    simp only [ok.injEq, Prod.mk.injEq, reduceCtorEq, and_false, false_and, exists_false,
      false_iff, not_exists, not_and]
    exact fun c hc hname => absurd hname (hno c hc)
  | some n =>
    obtain ⟨hmem, hname⟩ := vnChild_mem hn
    have hone : (∃ c ∈ (s.vnode cur).children, (s.vnode c).name = (nextComponent p).1 ∧
        s.Follows c ((y :: ys).flatMap pieces) v) ↔ s.Follows n ((y :: ys).flatMap pieces) v := by
      constructor
      · rintro ⟨c, hc, hcn, hf⟩
        rwa [h.unique cur n hmem c hc (hname.trans hcn.symm)]
      · exact fun hf => ⟨n, hmem, hname, hf⟩
    rw [hone, ← ih n]
    by_cases hk : (s.vnode n).kind = .dir
    · simp only [hk, ne_eq, not_true_eq_false, if_false]
      rfl
    · simp only [hk, ne_eq, not_false_eq_true, if_true, ok.injEq, Prod.mk.injEq,
        reduceCtorEq, and_false, false_and, exists_false, false_iff]
      intro hr
      obtain ⟨x, xs, hx⟩ := List.exists_cons_of_ne_nil (pieces_ne_nil hy.1)
      have hf := (ih n).1 hr
      rw [List.flatMap_cons, hx] at hf
      obtain ⟨c, hc, -⟩ := hf
      exact hk (h.parent c n (h.child n c hc).2.1).2.2

theorem Shape.reaches_iff (h : s.Shape) {c : Name} {cs : List Name}
    (hc : ∀ x ∈ c :: cs, x ≠ [] ∧ slash ∉ x) (hk : ([slash].intercalate (c :: cs)).length ≤ k) :
    s.Reaches b k cur ([slash].intercalate (c :: cs)) v ↔
      s.Follows cur ((c :: cs).flatMap pieces) v := by
  -- a round takes a piece off the first component, or the last piece and the separator
  induction k generalizing cur c cs with
  | zero =>
    obtain ⟨rest, -, hrest⟩ := intercalate_rest cs
    rw [hrest, Nat.le_zero, List.length_eq_zero_iff, List.append_eq_nil_iff] at hk
    exact absurd hk.1 (hc c List.mem_cons_self).1
  | succ k ih =>
    obtain ⟨⟨hnil, hs⟩, hcs⟩ := List.forall_mem_cons.1 hc
    obtain ⟨rest, hr, hrest⟩ := intercalate_rest cs
    have hpos := List.length_pos_iff.2 hnil
    by_cases hl : c.length < nameMax
    · have hnext := nextComponent_short hs hl hr
      rw [List.flatMap_cons, pieces_short hnil hl]
      cases cs with
      | nil =>
        obtain rfl : rest = [] := by simpa [List.intercalate] using (hrest c).symm
        rw [hrest]
        have hlast : s.Reaches b (k + 1) cur (c ++ []) v ↔ s.vnChild cur c = some v := by
          simp only [Reaches, walkLoop, hnext, List.head?_nil, List.tail_nil]
          cases s.vnChild cur c <;> cases b <;> simp
        rw [hlast, h.vnChild_iff]
        simp [Follows]
      | cons y ys =>
        obtain rfl : rest = slash :: [slash].intercalate (y :: ys) := by
          simpa [intercalate_two] using (hrest c).symm
        rw [hrest] at hk ⊢
        rw [List.length_append, List.length_cons] at hk
        have hstep := h.reaches_next b (k := k) cur (v := v) (hcs y List.mem_cons_self)
          (congrArg (·.2.2) hnext) (fun n => ih hcs (by omega))
        rwa [hnext] at hstep
    · rw [List.flatMap_cons, pieces_long (not_lt.1 hl)]
      have hnext := nextComponent_long hs (not_lt.1 hl) hr
      have hd : c.drop (nameMax - 1) ≠ [] ∧ slash ∉ c.drop (nameMax - 1) := by
        refine ⟨?_, mt List.mem_of_mem_drop hs⟩
        simp only [ne_eq, List.drop_eq_nil_iff, nameMax] at *
        omega
      have hlen : (c.drop (nameMax - 1)).length < c.length := by
        rw [List.length_drop]
        exact Nat.sub_lt hpos (by decide)
      rw [hrest, List.length_append] at hk
      have hq : (nextComponent (c ++ rest)).2.2 =
          [slash].intercalate (c.drop (nameMax - 1) :: cs) := by rw [hnext, hrest]
      have hstep := h.reaches_next b (k := k) cur (v := v) hd hq
        (fun n => ih (List.forall_mem_cons.2 ⟨hd, hcs⟩) (by
          rw [hrest, List.length_append]
          omega))
      rwa [hnext, ← hrest] at hstep

/-- `walk` follows the pieces of the components. -/
theorem Shape.yields_iff (h : s.Shape) {parts : List Name} (hc : ∀ c ∈ parts, Component c)
    (b : Bool) (v : Nat) : s.Yields (absPath parts) b v ↔ s.Follows 0 (parts.flatMap pieces) v := by
  cases parts with
  | nil =>
    simp only [Yields, absPath, walk, List.intercalate]
    simp [Follows, eq_comm]
  | cons c cs =>
    obtain ⟨rest, -, hrest⟩ := intercalate_rest cs
    have hnil : [slash].intercalate (c :: cs) ≠ [] := by
      simp [hrest, (hc c List.mem_cons_self).1]
    have hw : s.walk (absPath (c :: cs)) b = s.walkLoop b ([slash].intercalate (c :: cs)).length 0
        ([slash].intercalate (c :: cs)) := by
      simp only [absPath, walk, ne_eq, not_true_eq_false, if_false, hnil]
    simp only [Yields, hw]
    exact h.reaches_iff (fun x hx => ⟨(hc x hx).1, (hc x hx).2.2.2⟩) le_rfl

/-- `walk` finds exactly the vnode that the components of the path lead to if every component is
shorter than `NAME_MAX`, or else if nothing is found at the pieces of 63 bytes. -/
theorem walk_resolves_iff (h : s.Shape) {parts : List Name} (hc : ∀ c ∈ parts, Component c)
    (lastMustExist : Bool) :
    (∀ v, s.Yields (absPath parts) lastMustExist v ↔ s.Follows 0 parts v) ↔
      (∀ c ∈ parts, c.length < nameMax) ∨ ∀ v, ¬s.Follows 0 (parts.flatMap pieces) v := by
  simp only [h.yields_iff hc]
  by_cases hl : ∀ c ∈ parts, c.length < nameMax
  · have heq : parts.flatMap pieces = parts.flatMap fun c => [c] :=
      List.flatMap_congr fun c hx => pieces_short (hc c hx).1 (hl c hx)
    rw [List.flatMap_singleton'] at heq
    exact ⟨fun _ => .inl hl, fun _ v => by rw [heq]⟩
  · have hno : ∀ v, ¬s.Follows 0 parts v := fun v hf => hl (h.follows_short hf)
    simp [hno, hl]

theorem walk_resolves_iff_dir :
    ∃ s, Run.run vfsStep .init [.mkdir [slash] [slash, 100] true] = some s ∧
      ∀ v, s.Yields (absPath [[100]]) true v ↔ s.Follows 0 [[100]] v := by
  obtain ⟨s, hs, hinv⟩ := run_vfsInv
    (show Run.Legal vfsStep VfsOk .init [.mkdir [slash] [slash, 100] true] by decide +kernel)
  exact ⟨s, hs, (walk_resolves_iff hinv.shape (by decide) true).2 (.inl (by decide))⟩

/-- A directory with a name of 63 bytes and a file `b` in it: the name of 64 bytes that the two
make up leads to the file. -/
theorem walk_splits_name : let a := List.replicate 63 97
    ∃ s, Run.run vfsStep .init [.mkdir [slash] (absPath [a]) true,
        .open [slash] (absPath [a, [98]]) fileReadData fileCreate 0 true true] = some s ∧
      s.Yields (absPath [a ++ [98]]) true 2 ∧ ∀ v, ¬s.Follows 0 [a ++ [98]] v := by
  intro a
  obtain ⟨s, hs, hw, hno⟩ : ∃ s, Run.run vfsStep .init [.mkdir [slash] (absPath [a]) true,
        .open [slash] (absPath [a, [98]]) fileReadData fileCreate 0 true true] = some s ∧
      s.walk (absPath [a ++ [98]]) true = .ok (.success, some ⟨1, some 2, [98]⟩) ∧
      ∀ c ∈ (s.vnode 0).children, (s.vnode c).name ≠ a ++ [98] := by decide +kernel
  exact ⟨s, hs, ⟨_, hw, rfl⟩, fun v ⟨c, hc, hname, _⟩ => hno c hc hname⟩

/-! ## The locals of `vfs_open` -/

theorem walkLoop_fails (h : s.walkLoop b k cur p = .ok (st, none)) : st ≠ .success := by
  induction k generalizing cur p with
  | zero => cases h
  | succ k ih =>
    simp only [walkLoop] at h
    by_cases hlast : (nextComponent p).2.2 = [] ∧ (nextComponent p).2.1 = false
    · rw [if_pos hlast] at h
      split_ifs at h
      · cases h
        decide
      · cases h
    · rw [if_neg hlast] at h
      split at h
      · cases h
        decide
      · split_ifs at h
        · cases h
          decide
        · cases h
        · exact ih h

theorem walk_fails {abs : Name} (h : s.walk abs b = .ok (st, none)) : st ≠ .success := by
  unfold walk at h
  split at h
  · cases h
    decide
  · split_ifs at h
    · cases h
      decide
    · cases h
    · exact walkLoop_fails h

theorem foFromPinned_status {access : Access} {fileHeap : Bool}
    (h : s.foFromPinned v access fileHeap = .ok r) : r.1 ≠ .invalidParameter := by
  simp only [foFromPinned] at h
  split_ifs at h
  · obtain ⟨s', -, hr⟩ := bind_eq_ok.1 h
    cases hr
    nofun
  · cases h
    nofun

theorem openNew_status {w : Walked} {access : Access} {opts : BitVec 32} {heap fileHeap : Bool}
    (hw : w.name ≠ []) (h : s.openNew w access opts heap fileHeap = .ok r) :
    r.1 ≠ .invalidParameter := by
  simp only [openNew, if_neg hw] at h
  split_ifs at h
  · cases h
    nofun
  all_goals
    split at h
    · exact foFromPinned_status h
    · exact foFromPinned_status h

variable {cwd path abs : Name} {access : Access} {disp opts : BitVec 32} {heap fileHeap : Bool}

theorem openFrom_of_fails (hn : pathNorm cwd path = some abs)
    (hw : s.walk abs (disp = fileOpen) = .ok (st, none)) (locals : Walked) :
    s.openFrom locals cwd path access disp opts heap fileHeap =
      if disp = fileOpen then .ok (st, none, s)
      else if s.Wild locals disp heap then .fault
      else s.openWalked locals access disp opts heap fileHeap := by
  simp only [openFrom, hn, hw, ok_bind, pure_eq, ne_eq, walk_fails hw,
    not_false_eq_true, true_and, Option.getD_none]

/-- When `walk` has failed, `vfs_open` fails and leaves everything as it is, whatever is in its
locals, exactly if the disposition is `FILE_OPEN`. -/
theorem openFrom_clean_iff (hn : pathNorm cwd path = some abs) {st : Status}
    (hw : s.walk abs (disp = fileOpen) = .ok (st, none)) :
    (∃ st, st ≠ .success ∧ ∀ locals,
        s.openFrom locals cwd path access disp opts heap fileHeap = .ok (st, none, s)) ↔
      disp = fileOpen := by
  simp only [openFrom_of_fails hn hw]
  constructor
  · intro ⟨st', _, h⟩
    by_contra hd
    -- `v` is null: an empty `leaf` is an error of its own, and another is not
    have h1 := h ⟨0, none, []⟩
    have h2 := h ⟨0, none, [dot]⟩
    rw [if_neg hd] at h1 h2
    split_ifs at h2
    simp only [openWalked, if_neg hd] at h2
    have h3 := openNew_status (by decide) h2
    simp [Wild, openWalked, openNew, hd] at h1
    exact h3 h1.symm
  · intro hd
    exact ⟨st, walk_fails hw, fun _ => if_pos hd⟩

/-- `/x` does not exist. With the root in `parent`, null in `v` and `z` in `leaf`, creating `/x/y`
creates `/z`. -/
theorem openFrom_creates_leaf :
    init.walk [slash, 120, slash, 121] false = .ok (.objectPathNotFound, none) ∧
      ∃ s, init.openFrom ⟨0, none, [122]⟩ [slash] [slash, 120, slash, 121] fileReadData fileCreate 0
        true true = .ok (.success, some 0, s) ∧ s.Yields [slash, 122] true 1 := by
  refine ⟨by decide +kernel, ?_⟩
  obtain ⟨⟨st, f, s⟩, hs, rfl, rfl, hw⟩ : ∃ r, init.openFrom ⟨0, none, [122]⟩ [slash]
      [slash, 120, slash, 121] fileReadData fileCreate 0 true true = .ok r ∧ r.1 = .success ∧
      r.2.1 = some 0 ∧ r.2.2.walk [slash, 122] true = .ok (.success, some ⟨0, some 1, [122]⟩) := by
    decide +kernel
  exact ⟨s, hs, _, hw, rfl⟩

theorem openFrom_clean_iff_missing :
    ∃ st, st ≠ .success ∧ ∀ locals, init.openFrom locals [slash] [slash, 120, slash, 121]
      fileReadData fileOpen 0 true true = .ok (st, none, init) :=
  (openFrom_clean_iff
    (show pathNorm [slash] [slash, 120, slash, 121] = some [slash, 120, slash, 121] by
      decide +kernel)
    (show init.walk _ (fileOpen = fileOpen) = .ok (.objectPathNotFound, none) by decide +kernel)).2
    rfl

end Vfs

end Aegis
