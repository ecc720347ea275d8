import Aegis.Mm.Pmm
import Aegis.Lib.Chain

/-!
# The free lists of the buddy allocator

`Lists s P`: the list of every order is a `Chain.Linked` one without repetition, and the list of
order `o` holds exactly the frames with `P o`. `listPush`, `listPop` and `pmm_list_remove` change
`P` by one frame and nothing but links (`SameBlocks`); removal returns on every such state.
-/

namespace Aegis.Pmm

open Chain Function

def next (s : Pmm) (p : Nat) : Nat := (s.frames p).nextPfn

/-- The states agree on the blocks of the frame array. -/
structure SameFrames (s s' : Pmm) : Prop where
  nframes : s'.nframes = s.nframes
  physBase : s'.physBase = s.physBase
  state : ∀ p, (s'.frames p).state = (s.frames p).state
  order : ∀ p, (s'.frames p).order = (s.frames p).order

/-- The states agree on everything but the links of the lists. -/
structure SameBlocks (s s' : Pmm) : Prop extends SameFrames s s' where
  freePages : s'.freePages = s.freePages

/-- The list of order `o` holds the frames with `P o`, each once. -/
def Lists (s : Pmm) (P : Nat → Nat → Prop) : Prop :=
  ∀ o ≤ pmmMaxOrder, ∃ l, Linked pfnNil s.next (s.freeHead o) l ∧ l.Nodup ∧ ∀ p, p ∈ l ↔ P o p

theorem SameBlocks.trans {s1 s2 s3 : Pmm} (h : SameBlocks s1 s2) (h' : SameBlocks s2 s3) :
    SameBlocks s1 s3 where
  nframes := h'.nframes.trans h.nframes
  physBase := h'.physBase.trans h.physBase
  freePages := h'.freePages.trans h.freePages
  state p := (h'.state p).trans (h.state p)
  order p := (h'.order p).trans (h.order p)

theorem setNext_same (s : Pmm) (p v : Nat) : SameBlocks s (s.setNext p v) where
  nframes := rfl
  physBase := rfl
  freePages := rfl
  state q := by
    show (update s.frames p _ q).state = _
    by_cases h : q = p
    · subst h; rw [update_self]
    · rw [update_of_ne h]
  order q := by
    show (update s.frames p _ q).order = _
    by_cases h : q = p
    · subst h; rw [update_self]
    · rw [update_of_ne h]

theorem setHead_same (s : Pmm) (o v : Nat) : SameBlocks s (s.setHead o v) :=
  ⟨⟨rfl, rfl, fun _ => rfl, fun _ => rfl⟩, rfl⟩

theorem listPush_same (s : Pmm) (o p : Nat) : SameBlocks s (s.listPush o p) :=
  (setNext_same _ _ _).trans (setHead_same _ _ _)

@[simp] theorem next_setNext (s : Pmm) (p v : Nat) : (s.setNext p v).next = update s.next p v := by
  funext q
  show (update s.frames p _ q).nextPfn = _
  by_cases h : q = p
  · subst h; simp
  · rw [update_of_ne h, update_of_ne h]; rfl

@[simp] theorem next_setHead (s : Pmm) (o v : Nat) : (s.setHead o v).next = s.next := rfl

@[simp] theorem freeHead_setNext (s : Pmm) (p v : Nat) : (s.setNext p v).freeHead = s.freeHead := rfl

@[simp] theorem freeHead_setHead (s : Pmm) (o v : Nat) :
    (s.setHead o v).freeHead = update s.freeHead o v := rfl

section
variable {s : Pmm} {P : Nat → Nat → Prop}
variable {o q r : Nat} {s' : Pmm}

theorem Lists.congr {P' : Nat → Nat → Prop} (h : Lists s P) (hh : s'.freeHead = s.freeHead)
    (hn : ∀ o p, P o p → s'.next p = s.next p) (hP : ∀ o ≤ pmmMaxOrder, ∀ p, P' o p ↔ P o p) :
    Lists s' P' := by
  intro o ho
  obtain ⟨l, hl, hnd, hm⟩ := h o ho
  refine ⟨l, ?_, hnd, fun p => by rw [hm, hP o ho]⟩
  rw [hh]
  exact linked_congr hl fun x hx => hn o x ((hm x).1 hx)

theorem Lists.push (h : Lists s P) (hq : ∀ o ≤ pmmMaxOrder, ¬ P o q) (hn : q ≠ pfnNil) :
    Lists (s.listPush r q) fun o p => P o p ∨ (o = r ∧ p = q) := by
  intro o ho
  obtain ⟨l, hl, hnd, hm⟩ := h o ho
  have hql : q ∉ l := fun hx => hq o ho ((hm q).1 hx)
  have he : (s.listPush r q).next = update s.next q (s.freeHead r) := by
    simp [listPush]
  by_cases hor : o = r
  · subst hor
    refine ⟨q :: l, ?_, List.nodup_cons.2 ⟨hql, hnd⟩, fun p => ?_⟩
    · rw [he, show (s.listPush o q).freeHead o = q by simp [listPush]]
      exact linked_push hl hql hn
    · simp [hm, or_comm]
  · refine ⟨l, ?_, hnd, fun p => ?_⟩
    · rw [he, show (s.listPush r q).freeHead o = s.freeHead o by simp [listPush, hor]]
      exact linked_congr hl fun x hx => update_of_ne (fun e => hql (by rwa [← e])) _ _
    · simp [hm, hor]

theorem Lists.head_mem (h : Lists s P) (ho : o ≤ pmmMaxOrder) (hne : s.freeHead o ≠ pfnNil) :
    P o (s.freeHead o) := by
  obtain ⟨l, hl, -, hm⟩ := h o ho
  cases l with
  | nil => exact absurd hl hne
  | cons x l =>
    obtain ⟨he, -, -⟩ := hl
    rw [he]
    exact (hm x).1 (by simp)

theorem Lists.others (h : Lists s P) (hP : ∀ o o' p, P o p → P o' p → o = o') (hq : P r q)
    (hh : ∀ o, o ≠ r → s'.freeHead o = s.freeHead o) (hn : ∀ p, ¬ P r p → s'.next p = s.next p)
    (ho : o ≤ pmmMaxOrder) (hor : o ≠ r) :
    ∃ l, Linked pfnNil s'.next (s'.freeHead o) l ∧ l.Nodup ∧ ∀ p, p ∈ l ↔ P o p ∧ p ≠ q := by
  obtain ⟨l, hl, hnd, hm⟩ := h o ho
  refine ⟨l, ?_, hnd, fun p => ?_⟩
  · rw [hh o hor]
    exact linked_congr hl fun x hx => hn x fun hx' => hor (hP o r x ((hm x).1 hx) hx')
  · rw [hm]
    refine ⟨fun hp => ⟨hp, ?_⟩, fun hp => hp.1⟩
    rintro rfl
    exact hor (hP o r p hp hq)

theorem Lists.pop (h : Lists s P) (hP : ∀ o o' p, P o p → P o' p → o = o') (hr : r ≤ pmmMaxOrder)
    (hne : s.freeHead r ≠ pfnNil) :
    (s.listPop r).2 = s.freeHead r ∧ SameBlocks s (s.listPop r).1 ∧
      Lists (s.listPop r).1 fun o p => P o p ∧ p ≠ s.freeHead r := by
  have hq := h.head_mem hr hne
  simp only [listPop, hne, if_false]
  refine ⟨trivial, (setHead_same _ _ _).trans (setNext_same _ _ _), fun o ho => ?_⟩
  by_cases hor : o = r
  · subst hor
    obtain ⟨l, hl, hnd, hm⟩ := h o ho
    cases l with
    | nil => exact absurd hl hne
    | cons x l =>
      obtain ⟨hx, -, hl⟩ := hl
      have hxl := (List.nodup_cons.1 hnd).1
      refine ⟨l, ?_, (List.nodup_cons.1 hnd).2, fun p => ?_⟩
      · simp only [next_setNext, next_setHead, freeHead_setNext, freeHead_setHead,
          update_self]
        rw [hx]
        exact linked_congr hl fun y hy => update_of_ne (fun e => hxl (by rwa [← e])) _ _
      · show p ∈ l ↔ P o p ∧ p ≠ s.freeHead o
        rw [← hm, List.mem_cons, hx]
        refine ⟨fun hp => ⟨.inr hp, ?_⟩, fun hp => hp.1.resolve_left hp.2⟩
        rintro rfl
        exact hxl hp
  · refine h.others hP hq (fun o' ho' => ?_) (fun p hp => ?_) ho hor
    · simp [ho']
    · have : p ≠ s.freeHead r := by rintro rfl; exact hp hq
      simp [this]

/-! ## Removal -/

/-- Where the removal loop finds its node: at the link it starts from, or behind a node. -/
theorem listRemoveFrom_spec {order x : Nat} :
    ∀ (k : Nat) (w : Option Nat) (suf : List Nat), suf.length ≤ k → x ∈ suf →
      Linked pfnNil s.next (s.linkGet order w) suf → ∃ w', listRemoveFrom order x k s w =
          .ok ((s.linkSet order w' (s.next x)).setNext x pfnNil) ∧ ((w' = w ∧ ∃ l2, suf = x :: l2) ∨
          ∃ l1 q l2, w' = some q ∧ suf = l1 ++ q :: x :: l2)
  | 0, _, suf, hk, hx, _ => by
    rw [List.length_eq_zero_iff.1 (Nat.le_zero.1 hk)] at hx
    simp at hx
  | k + 1, w, [], _, hx, _ => by simp at hx
  | k + 1, w, y :: suf, hk, hx, hl => by
    obtain ⟨hy, hyn, hl⟩ := hl
    by_cases hyx : y = x
    · subst hyx
      refine ⟨w, ?_, .inl ⟨rfl, suf, rfl⟩⟩
      simp [listRemoveFrom, hy, hyn, next]
    · have hx' : x ∈ suf := by
        rcases List.mem_cons.1 hx with h | h
        · exact absurd h.symm hyx
        · exact h
      obtain ⟨w', hr, hc⟩ := listRemoveFrom_spec k (some y) suf (by simpa using hk) hx' hl
      refine ⟨w', ?_, .inr ?_⟩
      · rw [← hr]
        simp [listRemoveFrom, hy, hyn, hyx]
      · rcases hc with ⟨rfl, l2, rfl⟩ | ⟨l1, q, l2, rfl, rfl⟩
        · exact ⟨[], y, l2, rfl, rfl⟩
        · exact ⟨y :: l1, q, l2, rfl, rfl⟩

theorem length_le_of_nodup {l : List Nat} {n : Nat} (hnd : l.Nodup) (h : ∀ p ∈ l, p < n) :
    l.length ≤ n := by
  have := List.toFinset_card_of_nodup hnd
  rw [← this, ← Finset.card_range n]
  exact Finset.card_le_card fun p hp => Finset.mem_range.2 (h p (List.mem_toFinset.1 hp))

theorem Lists.remove (h : Lists s P) (hP : ∀ o o' p, P o p → P o' p → o = o')
    (hb : ∀ o p, P o p → p < s.nframes) (hr : r ≤ pmmMaxOrder) (hq : P r q) :
    ∃ s', s.listRemove r q = .ok s' ∧ SameBlocks s s' ∧ Lists s' fun o p => P o p ∧ p ≠ q := by
  obtain ⟨l, hl, hnd, hm⟩ := h r hr
  have hql : q ∈ l := (hm q).2 hq
  have hlen : l.length ≤ s.nframes + 1 :=
    Nat.le_succ_of_le (length_le_of_nodup hnd fun p hp => hb r p ((hm p).1 hp))
  obtain ⟨w, hrun, hc⟩ := listRemoveFrom_spec (s := s) (s.nframes + 1) none l hlen
    hql hl
  refine ⟨_, hrun, ?_, fun o ho => ?_⟩
  · refine SameBlocks.trans ?_ (setNext_same _ _ _)
    cases w with
    | none => exact setHead_same _ _ _
    | some p => exact setNext_same _ _ _
  by_cases hor : o = r
  · subst hor
    rcases hc with ⟨rfl, l2, rfl⟩ | ⟨l1, p, l2, rfl, rfl⟩
    · -- the node is the head
      have hxl := (List.nodup_cons.1 hnd).1
      obtain ⟨-, -, hl⟩ := hl
      refine ⟨l2, ?_, (List.nodup_cons.1 hnd).2, fun p => ?_⟩
      · simp only [linkSet, next_setNext, next_setHead, freeHead_setNext, freeHead_setHead,
          update_self]
        exact linked_congr hl fun y hy => update_of_ne (fun e => hxl (by rwa [← e])) _ _
      · show p ∈ l2 ↔ P o p ∧ p ≠ q
        rw [← hm, List.mem_cons]
        refine ⟨fun hp => ⟨.inr hp, ?_⟩, fun hp => hp.1.resolve_left hp.2⟩
        rintro rfl
        exact hxl hp
    · -- the node follows `p`
      have hnd' : (l1 ++ p :: l2).Nodup ∧ q ∉ l1 ++ p :: l2 := by
        have hperm : (l1 ++ p :: q :: l2).Perm (q :: (l1 ++ p :: l2)) := by
          rw [show l1 ++ p :: q :: l2 = (l1 ++ [p]) ++ q :: l2 by simp,
            show l1 ++ p :: l2 = (l1 ++ [p]) ++ l2 by simp]
          exact List.perm_middle
        have := hperm.nodup_iff.1 hnd
        exact ⟨(List.nodup_cons.1 this).2, (List.nodup_cons.1 this).1⟩
      refine ⟨l1 ++ p :: l2, ?_, hnd'.1, fun x => ?_⟩
      · simp only [linkSet, next_setNext, freeHead_setNext]
        exact linked_congr (linked_unlink hl hnd)
          fun y hy => update_of_ne (fun e => hnd'.2 (by rwa [← e])) _ _
      · show x ∈ l1 ++ p :: l2 ↔ P o x ∧ x ≠ q
        rw [← hm]
        simp only [List.mem_append, List.mem_cons]
        have hne : x = q → x ∉ l1 ++ p :: l2 := fun e => e ▸ hnd'.2
        simp only [List.mem_append, List.mem_cons] at hne
        tauto
  · refine h.others hP hq (fun o' ho' => ?_) (fun p hp => ?_) ho hor
    · cases w <;> simp [linkSet, ho']
    · have hpq : p ≠ q := by rintro rfl; exact hp hq
      cases w with
      | none => simp [linkSet, hpq]
      | some x =>
        have hxl : x ∈ l := by
          rcases hc with ⟨h, -⟩ | ⟨l1, q', l2, h, rfl⟩
          · cases h
          · cases h; simp
        have hpx : p ≠ x := by rintro rfl; exact hp ((hm p).1 hxl)
        simp [linkSet, hpq, hpx]

end

end Aegis.Pmm
