import Aegis.Lib.Segments
import Aegis.Mm.Proof.RangeSpec
import Aegis.Mm.Views

/-!
# What `vmm_protect_user` leaves of a VAD

After the call no two neighbours have the same protection (`hwCoalesce_merged`), so a VAD is what the
protections of the bytes say: it goes on exactly as far as they are the same (`whole_iff`). A call
that runs out of VADs on the way has changed the protections up to one of the borders (`Applied`).
-/

namespace Aegis

open SwapList Apart Finset

variable {l l' : List (Slot Unit)} {v u : Slot Unit} {a b lo hi c : Nat} {prot : Prot}
variable {i nl nr : Nat} {as : Aspace Unit}

/-! ## Neighbours -/

theorem mergePair_none (h : mergePair l = none) (hv : v ∈ l) (hu : u ∈ l) (hne : v ≠ u)
    (hmeet : v.stop = u.start) (hprot : v.prot = u.prot) (htype : v.type = u.type)
    (hcom : v.committed = u.committed) : False := by
  obtain ⟨i, hi, rfl⟩ := List.mem_iff_getElem.1 hv
  obtain ⟨j, hj, rfl⟩ := List.mem_iff_getElem.1 hu
  have hij : i ≠ j := by
    rintro rfl
    exact hne rfl
  have hnone := List.findSome?_eq_none_iff.1 h (l[i], i) (List.mem_zipIdx_iff_getElem?.2 (by simp))
  rw [Option.map_eq_none_iff] at hnone
  have hfalse := List.find?_eq_none.1 hnone (l[j], j) (List.mem_zipIdx_iff_getElem?.2 (by simp))
  simp only [ne_eq, decide_eq_true_eq] at hfalse
  exact hfalse ⟨hij, hmeet, hprot, htype, hcom⟩

theorem hwCoalesce_merged {k : Nat} (h : l.length ≤ k) : mergePair (hwCoalesce k l) = none := by
  induction k generalizing l with
  | zero =>
    obtain rfl : l = [] := List.length_eq_zero_iff.1 (Nat.le_zero.1 h)
    rfl
  | succ k ih =>
    unfold hwCoalesce
    cases hm : mergePair l with
    | none => exact hm
    | some x =>
      obtain ⟨⟨v, i⟩, u, j⟩ := x
      obtain ⟨rest, hl, hl'⟩ := (joinVads_joined hm ()).perm
      apply ih
      have h1 := hl.length_eq
      have h2 : (joinVads l v i u.stop j).length = rest.length + 1 := hl'.length_eq
      simp only [List.length_cons] at h1
      omega

/-- The VADs of the system calls differ in their protections only. -/
def Plain (l : List (Slot Unit)) : Prop := ∀ v ∈ l, v.type = memCommit ∧ v.committed = 1

theorem hwCoalesce_plain (k : Nat) (h : Plain l) : Plain (hwCoalesce k l) := by
  induction k generalizing l with
  | zero => exact h
  | succ k ih =>
    unfold hwCoalesce
    cases hm : mergePair l with
    | none => exact h
    | some x =>
      obtain ⟨⟨v, i⟩, u, j⟩ := x
      obtain ⟨hi, hj, hij, -⟩ := mergePair_some hm
      obtain ⟨rest, hl, hl'⟩ := set_swapRemove_perm hij hi hj
      apply ih
      intro x hx
      rcases List.mem_cons.1 ((hl' { v with stop := u.stop }).mem_iff.1 hx) with rfl | hx
      · exact h v (List.mem_of_getElem? hi)
      · exact h x (hl.mem_iff.2 (by simp [hx]))

theorem Plain.rests {stop : Nat} (h : Plain l) (hv : v ∈ l) {x : Slot Unit}
    (hx : x ∈ rests v a stop nl nr () ()) : x.type = memCommit ∧ x.committed = 1 := by
  rcases mem_rests hx with ⟨-, rfl⟩ | ⟨-, rfl⟩
  · exact h v hv
  · exact h v hv

theorem Plain.protectSplit (h : Plain l) (hi : l[i]? = some v) :
    Plain (protectSplit l i v a b prot nl nr () () ()) := by
  intro x hx
  rcases List.mem_append.1 ((protectSplit_perm hi ..).mem_iff.1 hx) with hx | hx
  · rcases List.mem_cons.1 hx with rfl | hx
    · exact h v (List.mem_of_getElem? hi)
    · exact h.rests (List.mem_of_getElem? hi) hx
  · exact h x (List.mem_of_mem_eraseIdx hx)

theorem Plain.carve (h : Plain l) (hi : l[i]? = some v) : Plain (carve l i v a b nl nr () ()) := by
  intro x hx
  rcases List.mem_append.1 ((carve_perm hi ..).mem_iff.1 hx) with hx | hx
  · exact h.rests (List.mem_of_getElem? hi) hx
  · exact h x (List.mem_of_mem_eraseIdx hx)

/-- What every call keeps of an address space. -/
structure Regular (as : Aspace Unit) : Prop where
  vads : VadInv as
  noneEmpty : NoneEmpty as.slots
  plain : Plain as.slots

/-! ## Protections of bytes -/

theorem protOf_eq_some (h : AllApart l) : protOf l a = some prot ↔ ∃ v ∈ l, v.Has a ∧ v.prot = prot :=
  dataAt_eq_some (f := fun v _ => v.prot) h

theorem protOf_of_mem (h : AllApart l) (hv : v ∈ l) (ha : v.Has a) : protOf l a = some v.prot :=
  (protOf_eq_some h).2 ⟨v, hv, ha, rfl⟩

theorem Regular.next (h : Regular as) (hv : v ∈ as.slots) (hu : u ∈ as.slots) (ha : v.Has a)
    (hb : u.Has (a + 1)) : v = u ∨ v.stop = a + 1 ∧ u.start = a + 1 := by
  by_cases hlt : a + 1 < v.stop
  · exact .inl (h.vads.apart.eq_of_mem hv hu ⟨ha.1.trans (Nat.le_succ a), hlt⟩ hb)
  · by_cases hle : u.start ≤ a
    · exact .inl (h.vads.apart.eq_of_mem hv hu ha ⟨hle, (Nat.lt_succ_self a).trans hb.2⟩)
    · have h1 := ha.2
      have h2 := hb.1
      exact .inr ⟨by omega, by omega⟩

theorem Regular.merged (h : Regular as) (hm : mergePair as.slots = none) :
    Segments.Merged (fun v : Slot Unit => v.start) (fun v => v.stop) (fun v => v.prot) as.slots :=
    by
  refine ⟨h.vads.apart, h.noneEmpty, fun v hv u hu hmeet hprot => ?_⟩
  obtain ⟨h1, h2⟩ := h.plain v hv
  obtain ⟨h3, h4⟩ := h.plain u hu
  refine mergePair_none hm hv hu ?_ hmeet hprot (h1.trans h3.symm) (h2.trans h4.symm)
  rintro rfl
  exact absurd hmeet (Nat.ne_of_gt (h.noneEmpty v hv))

theorem Regular.next_eq (h : Regular as) (hm : mergePair as.slots = none) (hv : v ∈ as.slots)
    (hu : u ∈ as.slots) (ha : v.Has a) (hb : u.Has (a + 1)) (hprot : v.prot = u.prot) : v = u :=
  (h.merged hm).eq_of_succ hv hu ha hb hprot

def Whole (l : List (Slot Unit)) (a b : Nat) : Prop := ∃ v ∈ l, v.start = a ∧ v.stop = b

theorem Regular.whole_iff (h : Regular as) (hm : mergePair as.slots = none) (hlt : a < b) :
    Whole as.slots a b ↔ ∃ pr, (∀ x, a ≤ x → x < b → protOf as.slots x = some pr) ∧
        (a = 0 ∨ protOf as.slots (a - 1) ≠ some pr) ∧ protOf as.slots b ≠ some pr := by
  have hat (x : Nat) (pr : Prot) : Segments.At (fun v : Slot Unit => v.start) (fun v => v.stop)
      (fun v => v.prot) as.slots x pr ↔ protOf as.slots x = some pr :=
    (protOf_eq_some h.vads.apart).symm
  have hsplit : Whole as.slots a b ↔
      ∃ pr, ∃ v ∈ as.slots, v.start = a ∧ v.stop = b ∧ v.prot = pr := by
    constructor
    · rintro ⟨v, hv, h1, h2⟩
      exact ⟨v.prot, v, hv, h1, h2, rfl⟩
    · rintro ⟨pr, v, hv, h1, h2, -⟩
      exact ⟨v, hv, h1, h2⟩
  rw [hsplit]
  refine exists_congr fun pr => ?_
  rw [(h.merged hm).exists_iff]
  simp only [hat]
  constructor
  · rintro ⟨-, hall, hbefore, hafter⟩
    refine ⟨hall, ?_, hafter⟩
    rcases Nat.eq_zero_or_pos a with h0 | hpos
    · exact .inl h0
    · exact .inr (hbefore (a - 1) (Nat.sub_add_cancel hpos))
  · rintro ⟨hall, hbefore, hafter⟩
    refine ⟨hlt, hall, fun x hx => ?_, hafter⟩
    subst hx
    exact hbefore.resolve_left (Nat.succ_ne_zero x)

/-! ## The contained path -/

theorem protOf_page (hok : ∀ v ∈ l, v.Ok) (h : AllApart l) (a : Nat) :
    protOf l a = protOf l (a / 4096 * 4096) :=
  Option.ext fun _ => (protOf_eq_some h).trans (dataAt_page (f := fun v => v.prot) hok h).symm

theorem Joined.protOf {w : Slot Unit} (hj : Joined v u w l l') (h : AllApart l) (h' : AllApart l')
    (hok : ∀ v ∈ l, v.Ok) (a : Nat) : protOf l' a = protOf l a := by
  obtain ⟨rest, hl, -⟩ := hj.perm
  exact hj.dataAt (f := fun v _ => v.prot) h h' (hok v (hl.mem_iff.2 (by simp))).le
    (hok u (hl.mem_iff.2 (by simp))).le (fun _ => hj.prot_eq) fun _ => hj.prot_eq.trans hj.prot

/-- `as` has the protections of `l`, but `prot` in `[lo, c)`, in as few VADs as there can be. -/
structure Applied (l : List (Slot Unit)) (lo c : Nat) (prot : Prot) (as : Aspace Unit) : Prop where
  regular : Regular as
  merged : mergePair as.slots = none
  prot : ∀ a, protOf as.slots a = newProt l lo c prot a

section
variable {σ : Type} {m : Mmu σ} {s : HwState σ} {base size i nl nr : Nat}
variable {k stop : Nat} {clips : List (Nat × Nat)}

theorem Protected.protOf (hp : Protected s.as base size v i nl nr) (h : VadInv s.as)
    (prot : Prot) (a : Nat) :
    protOf (protectSplit s.as.slots i v base (base + size) prot nl nr () () ()) a =
      newProt s.as.slots base (base + size) prot a := by
  obtain ⟨hi, hpart, -, hl, hr⟩ := hp.part h
  have hinv := hp.inv h prot () () ()
  have hdata := dataAt_protectSplit (f := fun v _ => v.prot) (p := a / 4096 * 4096) h.apart hi
    (h.ok v (List.mem_of_getElem? hi)) hpart hl hr hinv.apart (by omega)
    ⟨fun _ _ => rfl, fun _ _ => rfl⟩
  rw [protOf_page hinv.ok hinv.apart, newProt, protOf_page h.ok h.apart a]
  refine hdata.trans ?_
  have hb := hp.aligned
  have hs := hp.pages
  have hiff : (base ≤ a / 4096 * 4096 ∧ a / 4096 * 4096 < base + size) ↔
      (base ≤ a ∧ a < base + size) := by omega
  simp only [hiff]
  rfl

theorem Protected.applied (hp : Protected s.as base size v i nl nr) (h : Regular s.as)
    (prot : Prot) :
    Applied s.as.slots base (base + size) prot { s.as with
      slots := hwCoalesce (protectSplit s.as.slots i v base (base + size) prot nl nr () () ()).length
        (protectSplit s.as.slots i v base (base + size) prot nl nr () () ()) } := by
  obtain ⟨hi, hpart, -, hl, hr⟩ := hp.part h.vads
  have hinv := hp.inv h.vads prot () () ()
  have hprot := hp.protOf h.vads prot
  have hpos := hp.pos
  have hne : NoneEmpty (protectSplit s.as.slots i v base (base + size) prot nl nr () () ()) := by
    rw [hl, hr]
    exact h.noneEmpty.protectSplit hi (by omega) prot () () ()
  have hplain : Plain (protectSplit s.as.slots i v base (base + size) prot nl nr () () ()) :=
    h.plain.protectSplit hi
  generalize protectSplit s.as.slots i v base (base + size) prot nl nr () () () = l at *
  have hkeep := hwCoalesce_keeps (P := fun l => VadInv { s.as with slots := l } ∧ NoneEmpty l ∧
      ∀ a, Aegis.protOf l a = newProt s.as.slots base (base + size) prot a)
    (fun l l' v u w hP hj => ⟨hj.inv hP.1, hj.noneEmpty hP.2.1, fun a =>
      (hj.protOf hP.1.apart (hj.inv hP.1).apart hP.1.ok a).trans (hP.2.2 a)⟩) l.length
    ⟨hinv, hne, hprot⟩
  exact ⟨⟨hkeep.1, hkeep.2.1, hwCoalesce_plain _ hplain⟩, hwCoalesce_merged le_rfl, hkeep.2.2⟩

/-- The VADs that a call for `[lo, hi)` in `v` needs beside the one it has. -/
def extra (v : Slot Unit) (lo hi : Nat) : Nat :=
  (if v.start < lo then 1 else 0) + (if hi < v.stop then 1 else 0)

theorem HwState.protectContained_effect (h : Regular s.as)
    (hc : Contained s.as.slots base size v i) (prot : Prot) :
    (maxVads < s.as.slots.length + extra v base (base + size) ∧
      protectContained m s i v base size (u64 (base + size)) prot =
        (.insufficientResources, none, s)) ∨
    (s.as.slots.length + extra v base (base + size) ≤ maxVads ∧
      ∃ s', protectContained m s i v base size (u64 (base + size)) prot =
        (.success, some v.prot, s') ∧ Applied s.as.slots base (base + size) prot s'.as) := by
  obtain ⟨hi, hpart, hu, hl, -, hr⟩ := h.vads.protectParts hc
  have hok := h.vads.ok v (List.mem_of_getElem? hi)
  have hextra : (if pagesBetween v.start base ≠ 0 then 1 else 0) +
      (if pagesBetween (u64 (base + size)) v.stop ≠ 0 then 1 else 0) =
        extra v base (base + size) := by
    have h1 := hok.start
    have h2 := hok.stop
    have h3 := hpart.base_aligned
    have h4 := hpart.stop_aligned
    rw [hu, hl, hr, extra]
    congr 1
    · exact if_congr (by omega) rfl rfl
    · exact if_congr (by omega) rfl rfl
  rcases lt_or_ge maxVads (s.as.slots.length + extra v base (base + size)) with hroom | hroom
  · refine .inl ⟨hroom, ?_⟩
    unfold protectContained
    simp only
    rw [hextra, if_pos hroom]
  · refine .inr ⟨hroom, ?_⟩
    rw [← hextra] at hroom
    have hp : Protected s.as base size v i _ _ := ⟨hc, rfl, rfl, hroom⟩
    exact ⟨_, protectContained_eq hp h.vads prot, hp.applied h prot⟩

/-! ## Clips -/

theorem Applied.append {as as' : Aspace Unit} (h : Applied l lo c prot as)
    (h' : Applied as.slots c hi prot as') (hlo : lo ≤ c) (hhi : c ≤ hi) :
    Applied l lo hi prot as' := by
  refine ⟨h'.regular, h'.merged, fun a => ?_⟩
  rw [h'.prot a, newProt, h.prot a, newProt, newProt]
  by_cases h1 : c ≤ a ∧ a < hi
  · rw [if_pos h1, if_pos ⟨by omega, h1.2⟩]
  · by_cases h2 : lo ≤ a ∧ a < c
    · rw [if_neg h1, if_pos h2, if_pos ⟨h2.1, by omega⟩]
    · rw [if_neg h1, if_neg h2, if_neg (by omega)]

/-- A call from `lo` on, for the VADs `l`, that ran out of VADs at `c`, a border of two of them. -/
structure Stopped (l : List (Slot Unit)) (lo c : Nat) (as : Aspace Unit) : Prop where
  first : ∃ u ∈ l, u.Has lo ∧ l.length + (if u.start < lo then 1 else 0) ≤ maxVads
  border : ∃ w ∈ l, w.stop = c
  room : ∃ v ∈ as.slots, v.Has c ∧
    maxVads < as.slots.length + (if v.start < c then 1 else 0) + 1

theorem HwState.protectClips_effect (hp : protLegal prot = true) (hreg : Regular s.as)
    (h : c = lo ∧ s.as.slots = l ∨ lo < c ∧ Applied l lo c prot s.as) (hstop : c ≤ stop)
    (hne : lo < stop)
    (hfirst : lo < c → ∃ u ∈ l, u.Has lo ∧ l.length + (if u.start < lo then 1 else 0) ≤ maxVads)
    (hborder : lo < c → c < stop → ∃ w ∈ l, w.stop = c) (hchain : ClipChain l stop c clips)
    (hc : ∀ x ∈ clips, Clip s.as.slots c stop x) (ho : Ordered clips) :
    ∃ st s', protectClips (protectAt m prot (k + 1)) clips s = .ok (st, s') ∧
      (st ≠ .success ∧ s' = s ∧ c = lo ∨ st = .success ∧ Applied l lo stop prot s'.as ∨
        st ≠ .success ∧ ∃ c', lo < c' ∧ c' < stop ∧ Applied l lo c' prot s'.as ∧
          Stopped l lo c' s'.as) := by
  induction clips generalizing s c with
  | nil =>
    obtain rfl : c = stop := le_antisymm hstop hchain
    rcases h with ⟨rfl, -⟩ | ⟨-, h⟩
    · exact absurd hne (lt_irrefl _)
    · exact ⟨.success, s, rfl, .inr (.inl ⟨rfl, h⟩)⟩
  | cons x clips ih =>
    obtain ⟨x1, hi⟩ := x
    obtain ⟨hx, hclips⟩ := List.forall_mem_cons.1 hc
    obtain ⟨hord, ho⟩ := List.pairwise_cons.1 ho
    obtain ⟨rfl, -, ⟨w, hw, hwhas, hwhi⟩, hchain⟩ := hchain
    simp only at hwhi hchain hwhas h hstop hborder hfirst hclips ⊢
    have hlo : lo ≤ x1 := h.elim (fun h => h.1.ge) fun h => h.1.le
    have hlt : x1 < hi := hx.lt
    have hle : hi ≤ stop := hx.upper
    have halign : x1 % 4096 = 0 := hx.aligned.1
    have halign' : hi % 4096 = 0 := hx.aligned.2
    obtain ⟨v, i, hcr, hr⟩ := protectAt_clip (m := m) hreg.vads hp halign halign' hlt hx.within
    obtain ⟨hi', hpart, -⟩ := hreg.vads.protectParts hcr
    have hstart := hpart.start_le
    have hend := hpart.le_stop
    have hv := List.mem_of_getElem? hi'
    obtain ⟨-, hkeep⟩ := protectContained_inv (m := m) hreg.vads hcr prot
    have hadd : x1 + (hi - x1) = hi := by omega
    rw [protectClips, hr, Outcome.ok_bind]
    rcases protectContained_effect (m := m) hreg hcr prot with
      ⟨hroom, he⟩ | ⟨hroom, s1, he, happ⟩
    · rw [he]
      refine ⟨.insufficientResources, s, rfl, ?_⟩
      rcases h with ⟨heq, -⟩ | ⟨hlt', h⟩
      · exact .inl ⟨by decide, rfl, heq⟩
      · refine .inr (.inr ⟨by decide, x1, hlt', by omega, h, hfirst hlt', hborder hlt' (by omega), v,
          hv, ⟨hstart, by omega⟩, ?_⟩)
        have hle' : (if x1 + (hi - x1) < v.stop then 1 else 0) ≤ 1 := by split <;> omega
        unfold extra at hroom
        omega
    · rw [he] at hkeep ⊢
      rw [hadd] at happ hroom
      have happ' : Applied l lo hi prot s1.as := by
        rcases h with ⟨rfl, rfl⟩ | ⟨-, h⟩
        · exact happ
        · exact h.append happ hlo hlt.le
      have hfirst' : ∃ u ∈ l, u.Has lo ∧ l.length + (if u.start < lo then 1 else 0) ≤ maxVads := by
        rcases h with ⟨rfl, rfl⟩ | ⟨hlt', -⟩
        · refine ⟨v, hv, ⟨hstart, by omega⟩, ?_⟩
          unfold extra at hroom
          omega
        · exact hfirst hlt'
      have hrest := Clip.rest hlt hclips hord hkeep
      obtain ⟨st, s', hr', hres⟩ := ih happ'.regular (.inr ⟨by omega, happ'⟩) hle
        (fun _ => hfirst') (fun _ hlt => ⟨w, hw, by omega⟩) hchain hrest ho
      refine ⟨st, s', hr', hres.imp_left fun hno => ?_⟩
      omega

/-- What `vmm_protect_user` does: nothing, or it applies the protection to its range, or to the part of
it before a border of two VADs. -/
theorem HwState.vmmProtectUser_effect (h : Regular s.as) (base size : Nat) (prot : Prot) :
    ∃ st old s', vmmProtectUser m s base size prot = .ok (st, old, s') ∧
      (st ≠ .success ∧ s' = s ∨ Covered s.as.slots base size ∧
        (st = .success ∧ Applied s.as.slots (pageAlignDown base)
            (pageAlignDown base + pageAlignUp size) prot s'.as ∨
          st ≠ .success ∧ ∃ c, pageAlignDown base < c ∧ c < pageAlignDown base + pageAlignUp size ∧
            Applied s.as.slots (pageAlignDown base) c prot s'.as ∧
            Stopped s.as.slots (pageAlignDown base) c s'.as)) := by
  unfold vmmProtectUser
  rcases protectAt_cases m prot s base size with
    ⟨st, hst, hr⟩ | ⟨hp, hpos, ⟨v, i, hc, hr⟩ | ⟨v, n, clips, hin, hrun, hchain, hr⟩⟩
  · exact ⟨st, none, s, hr 1, .inl ⟨hst, rfl⟩⟩
  · obtain ⟨hi, hpart, -⟩ := h.vads.protectParts hc
    have hcov : Covered s.as.slots base size := by
      refine ⟨hpos.ne', ?_⟩
      rintro ⟨a, h1, h2, hnone⟩
      exact hnone v (List.mem_of_getElem? hi) ⟨hpart.start_le.trans h1, h2.trans_le hpart.le_stop⟩
    rcases protectContained_effect (m := m) h hc prot with
      ⟨-, he⟩ | ⟨-, s', he, happ⟩
    · exact ⟨_, _, s, (hr 1).trans (congrArg Outcome.ok he), .inl ⟨by decide, rfl⟩⟩
    · exact ⟨_, _, s', (hr 1).trans (congrArg Outcome.ok he), .inr ⟨hcov, .inl ⟨rfl, happ⟩⟩⟩
  · have hcov : Covered s.as.slots base size := by
      refine ⟨hpos.ne', fun hole => ?_⟩
      obtain ⟨hdtop, -⟩ := inside_user (pageAlignUp_lt size) hin
      have htop := userCanonicalTop_eq
      rw [(vadRunCovers_eq_none h.vads.count (pageAlignDown_mod base) (by omega)
        (by omega)).2 hole] at hrun
      cases hrun
    obtain ⟨hclips, ho⟩ := hchain.rounded h.vads.ok
    obtain ⟨st, s', hr', hres⟩ := protectClips_effect (m := m) (k := 0) hp h (.inl ⟨rfl, rfl⟩)
      (by omega) (by omega) (fun hlt => absurd hlt (lt_irrefl _))
      (fun hlt => absurd hlt (lt_irrefl _)) hchain hclips ho
    refine ⟨st, some v.prot, s', by rw [hr 1, hr']; rfl, ?_⟩
    rcases hres with ⟨hne, hs', -⟩ | hres
    · exact .inl ⟨hne, hs'⟩
    · exact .inr ⟨hcov, hres⟩

end

/-! ## One VAD -/

section
variable {as as' : Aspace Unit} {pr : Prot}
variable {base size : Nat} {σ : Type} {st : Status} {old : Option Prot}

theorem newProt_of_in (h1 : lo ≤ a) (h2 : a < hi) : newProt l lo hi prot a = some prot :=
  if_pos ⟨h1, h2⟩

theorem newProt_of_out (h : a < lo ∨ hi ≤ a) : newProt l lo hi prot a = protOf l a :=
  if_neg (by omega)

theorem Applied.whole_iff (happ : Applied l lo hi prot as) (h : AllApart l) (hv : v ∈ l)
    (hlt : v.start < v.stop) (hrange : lo < hi) :
    Whole as.slots v.start v.stop ↔ ViewKept l v.start v.stop lo hi prot := by
  have hold : ∀ x, v.start ≤ x → x < v.stop → protOf l x = some v.prot :=
    fun x h1 h2 => protOf_of_mem h hv ⟨h1, h2⟩
  rw [happ.regular.whole_iff happ.merged hlt]
  simp only [happ.prot]
  constructor
  · rintro ⟨pr, hall, hbefore, hafter⟩
    have ha := hall v.start le_rfl hlt
    refine ⟨?_, by rwa [ha], by rwa [ha]⟩
    by_contra hno
    simp only [not_or, not_and, not_le] at hno
    obtain ⟨h1, h2, h3, h4⟩ := hno
    -- a byte of the VAD is in the range and another one is not
    obtain ⟨x, hx1, hx2, hx3⟩ : ∃ x, v.start ≤ x ∧ x < v.stop ∧ (lo ≤ x ∧ x < hi) := by
      rcases le_total lo v.start with hle | hle
      · exact ⟨v.start, le_rfl, hlt, hle, h3⟩
      · exact ⟨lo, hle, h2, le_rfl, hrange⟩
    obtain ⟨y, hy1, hy2, hy3⟩ : ∃ y, v.start ≤ y ∧ y < v.stop ∧ (y < lo ∨ hi ≤ y) := by
      rcases lt_or_ge v.start lo with hlow | hle
      · exact ⟨v.start, le_rfl, hlt, .inl hlow⟩
      · exact ⟨hi, h3.le, h1 hle, .inr le_rfl⟩
    have hx := hall x hx1 hx2
    have hy := hall y hy1 hy2
    rw [newProt_of_in hx3.1 hx3.2] at hx
    rw [newProt_of_out hy3, hold y hy1 hy2] at hy
    rw [hold v.start le_rfl hlt, hy, ← hx] at h4
    exact h4 rfl
  · rintro ⟨hwhole, hbefore, hafter⟩
    obtain ⟨pr, hpr⟩ : ∃ pr, newProt l lo hi prot v.start = some pr := by
      unfold newProt
      split
      · exact ⟨prot, rfl⟩
      · exact ⟨v.prot, hold v.start le_rfl hlt⟩
    refine ⟨pr, fun x h1 h2 => ?_, by rwa [hpr] at hbefore, by rwa [hpr] at hafter⟩
    rw [← hpr]
    rcases hwhole with ⟨h3, h4⟩ | h3 | h3 | h3
    · rw [newProt_of_in (by omega) (by omega), newProt_of_in h3 (by omega)]
    · rw [newProt_of_out (.inl (by omega)), newProt_of_out (.inl (by omega)), hold x h1 h2,
        hold v.start le_rfl hlt]
    · rw [newProt_of_out (.inr (by omega)), newProt_of_out (.inr h3), hold x h1 h2,
        hold v.start le_rfl hlt]
    · have hsame : ∀ y, v.start ≤ y → y < v.stop → newProt l lo hi prot y = some prot := by
        intro y hy1 hy2
        unfold newProt
        split
        · rfl
        · rw [hold y hy1 hy2, ← hold v.start le_rfl hlt, h3]
      rw [hsame x h1 h2, hsame v.start le_rfl hlt]

/-! ## A call that runs out of VADs -/

theorem start_of_border (h : Regular as) (hb : ∃ w ∈ as.slots, w.stop = c)
    (hc : ∃ u ∈ as.slots, u.Has c) : ∃ u ∈ as.slots, u.start = c := by
  obtain ⟨w, hw, rfl⟩ := hb
  obtain ⟨u, hu, hhas⟩ := hc
  have hne := h.noneEmpty w hw
  refine ⟨u, hu, ?_⟩
  rcases h.next hw hu (a := w.stop - 1) ⟨by omega, by omega⟩
    (by rw [Nat.sub_add_cancel (by omega)]; exact hhas) with rfl | ⟨-, hs⟩
  · exact absurd hhas.2 (lt_irrefl _)
  · omega

theorem Applied.start_mem (happ : Applied as.slots lo c prot as') (h : Regular as)
    (hcov : ∀ x, lo ≤ x → x < c → ∃ u ∈ as.slots, u.Has x) (hc : ∃ u ∈ as.slots, u.start = c)
    {y : Slot Unit} (hy : y ∈ as'.slots) : y.start = lo ∨ ∃ u ∈ as.slots, u.start = y.start := by
  by_contra hno
  simp only [not_or, not_exists, not_and] at hno
  obtain ⟨hlo, hnone⟩ := hno
  have hreg := happ.regular
  have hlt := hreg.noneEmpty y hy
  have hyc : y.start ≠ c := by
    obtain ⟨u, hu, hus⟩ := hc
    intro heq
    exact hnone u hu (hus.trans heq.symm)
  have hprot := happ.prot y.start
  rw [protOf_of_mem hreg.vads.apart hy ⟨le_rfl, hlt⟩] at hprot
  obtain ⟨z, hz, hzhas⟩ : ∃ z ∈ as.slots, z.Has y.start := by
    by_cases hin : lo ≤ y.start ∧ y.start < c
    · exact hcov y.start hin.1 hin.2
    · rw [newProt, if_neg hin] at hprot
      obtain ⟨z, hz, hhas, -⟩ := (protOf_eq_some h.vads.apart).1 hprot.symm
      exact ⟨z, hz, hhas⟩
  have hzs : z.start < y.start := lt_of_le_of_ne hzhas.1 (hnone z hz)
  -- the byte before is in the same old VAD, and on the same side of `lo` and of `c`
  have hback : newProt as.slots lo c prot (y.start - 1) = newProt as.slots lo c prot y.start := by
    have hz1 := protOf_of_mem h.vads.apart hz (a := y.start - 1)
      ⟨by omega, by have := hzhas.2; omega⟩
    have hz2 := protOf_of_mem h.vads.apart hz hzhas
    unfold newProt
    rw [hz1, hz2]
    exact if_congr (by omega) rfl rfl
  rw [← hback, ← happ.prot] at hprot
  obtain ⟨x, hx, hxhas, hxp⟩ := (protOf_eq_some hreg.vads.apart).1 hprot.symm
  have heq := hreg.next_eq happ.merged hx hy hxhas
    (by rw [Nat.sub_add_cancel (by omega)]; exact ⟨le_rfl, hlt⟩) hxp
  subst heq
  have := hxhas.1
  omega

theorem Regular.starts_nodup (h : Regular as) : (as.slots.map fun v => v.start).Nodup := by
  refine List.pairwise_map.2 (h.vads.apart.imp_of_mem fun {v u} hv hu hoff => ?_)
  have h1 := h.noneEmpty v hv
  have h2 := h.noneEmpty u hu
  simp only [Off] at hoff
  omega

def borders (as : Aspace Unit) (lo : Nat) : Finset Nat :=
  insert lo (as.slots.map fun v => v.start).toFinset

theorem mem_borders {x : Nat} : x ∈ borders as lo ↔ x = lo ∨ ∃ u ∈ as.slots, u.start = x := by
  simp [borders]

theorem Stopped.card_borders (hst : Stopped as.slots lo c as') :
    (borders as lo).card ≤ maxVads := by
  obtain ⟨u, hu, hhas, hroom⟩ := hst.first
  have hcard := List.toFinset_card_le (as.slots.map fun v => v.start)
  rw [List.length_map] at hcard
  rcases eq_or_lt_of_le hhas.1 with heq | hlt
  · have hmem : lo ∈ (as.slots.map fun v => v.start).toFinset :=
      List.mem_toFinset.2 (List.mem_map.2 ⟨u, hu, heq⟩)
    rw [borders, insert_eq_of_mem hmem]
    omega
  · rw [if_pos hlt] at hroom
    have := card_insert_le lo (as.slots.map fun v => v.start).toFinset
    unfold borders
    omega

/-- The VADs of the state are as many as their starts, and miss the borders at which it joined. -/
theorem Applied.length_le (happ : Applied as.slots lo c prot as') (h : Regular as)
    (hcov : ∀ x, lo ≤ x → x < c → ∃ u ∈ as.slots, u.Has x) (hc : ∃ u ∈ as.slots, u.start = c)
    {g : Finset Nat} (hg : g ⊆ borders as lo) (hno : ∀ y ∈ as'.slots, y.start ∉ g) :
    as'.slots.length + g.card ≤ (borders as lo).card := by
  have hcard := List.toFinset_card_of_nodup happ.regular.starts_nodup
  rw [List.length_map] at hcard
  have hsub : (as'.slots.map fun v => v.start).toFinset ⊆ borders as lo \ g := by
    intro x hx
    obtain ⟨y, hy, rfl⟩ := List.mem_map.1 (List.mem_toFinset.1 hx)
    exact mem_sdiff.2 ⟨mem_borders.2 (happ.start_mem h hcov hc hy), hno y hy⟩
  have hle := card_le_card hsub
  have hsd := card_sdiff_add_card_eq_card hg
  omega

/-- A call that ran out of VADs has not joined a VAD behind its range to the last one in it: there
would be one VAD less, and room for the next. -/
theorem Stopped.before_ne (hst : Stopped as.slots lo c as') (happ : Applied as.slots lo c prot as')
    (h : Regular as) (hlo : lo < c) (hc : c < hi)
    (hcov : ∀ x, lo ≤ x → x < hi → ∃ u ∈ as.slots, u.Has x) (hv : v ∈ as.slots)
    (hvs : v.start = hi) : protOf as.slots (hi - 1) ≠ some v.prot := by
  intro heq
  have hreg := happ.regular
  have hcs := start_of_border h hst.border (hcov c hlo.le hc)
  have hcov' : ∀ x, lo ≤ x → x < c → ∃ u ∈ as.slots, u.Has x :=
    fun x h1 h2 => hcov x h1 (h2.trans hc)
  have hlt := h.noneEmpty v hv
  -- no VAD starts at `hi` now
  have hhi : ∀ y ∈ as'.slots, y.start ≠ hi := by
    intro y hy hys
    have hylt := hreg.noneEmpty y hy
    have h1 : protOf as'.slots (hi - 1) = some v.prot := by
      rw [happ.prot, newProt_of_out (.inr (by omega)), heq]
    have h2 : protOf as'.slots hi = some v.prot := by
      rw [happ.prot, newProt_of_out (.inr hc.le)]
      exact protOf_of_mem h.vads.apart hv ⟨hvs.le, by omega⟩
    obtain ⟨x, hx, hxhas, hxp⟩ := (protOf_eq_some hreg.vads.apart).1 h1
    have hyp : some y.prot = some v.prot :=
      (protOf_of_mem hreg.vads.apart hy ⟨hys.le, by omega⟩).symm.trans h2
    have hxy := hreg.next_eq happ.merged hx hy hxhas
      (by rw [Nat.sub_add_cancel (by omega)]; exact ⟨hys.le, by omega⟩)
      (hxp.trans (Option.some.inj hyp).symm)
    subst hxy
    have := hxhas.1
    omega
  have hcard := hst.card_borders
  obtain ⟨w, hw, hwhas, hroom⟩ := hst.room
  have hhim : hi ∈ borders as lo := mem_borders.2 (.inr ⟨v, hv, hvs⟩)
  have hcm : c ∈ borders as lo := mem_borders.2 (.inr hcs)
  by_cases hws : w.start < c
  · rw [if_pos hws] at hroom
    have hcno : ∀ y ∈ as'.slots, y.start ≠ c := by
      intro y hy hys
      have hyw := hreg.vads.apart.eq_of_mem hy hw (x := c)
        ⟨hys.le, by have := hreg.noneEmpty y hy; omega⟩ hwhas
      subst hyw
      omega
    have hsub : {hi, c} ⊆ borders as lo :=
      insert_subset hhim (singleton_subset_iff.2 hcm)
    have hle := happ.length_le h hcov' hcs hsub fun y hy => by simp [hhi y hy, hcno y hy]
    rw [card_pair hc.ne'] at hle
    omega
  · rw [if_neg hws] at hroom
    have hle := happ.length_le h hcov' hcs (singleton_subset_iff.2 hhim)
      fun y hy => by simp [hhi y hy]
    rw [card_singleton] at hle
    omega

theorem Stopped.viewKept (hst : Stopped as.slots lo c as') (happ : Applied as.slots lo c prot as')
    (h : Regular as) (hlo : lo < c) (hc : c < hi)
    (hcov : ∀ x, lo ≤ x → x < hi → ∃ u ∈ as.slots, u.Has x) (hv : v ∈ as.slots)
    (hk : ViewKept as.slots v.start v.stop lo hi prot) :
    ViewKept as.slots v.start v.stop lo c prot := by
  have hlt := h.noneEmpty v hv
  have hold := protOf_of_mem h.vads.apart hv ⟨le_rfl, hlt⟩
  obtain ⟨hwhole, hbefore, hafter⟩ := hk
  -- the VAD is on one side of the border
  have hside : v.stop ≤ c ∨ c ≤ v.start := by
    obtain ⟨w, hw, rfl⟩ := hst.border
    have hwlt := h.noneEmpty w hw
    by_contra hno
    have heq := h.vads.apart.eq_of_mem hv hw (x := w.stop - 1) ⟨by omega, by omega⟩
      ⟨by omega, by omega⟩
    subst heq
    omega
  have hsame : ∀ x, x < c ∨ hi ≤ x →
      newProt as.slots lo c prot x = newProt as.slots lo hi prot x := by
    intro x hx
    unfold newProt
    exact if_congr (by omega) rfl rfl
  rcases hside with hside | hside
  · -- before the border: the byte behind the VAD may be the first that was not reached
    have ha := hsame v.start (.inl (by omega))
    have hwhole' : lo ≤ v.start ∧ v.stop ≤ c ∨ v.stop ≤ lo ∨ c ≤ v.start ∨
        protOf as.slots v.start = some prot := by
      rcases hwhole with ⟨h3, -⟩ | h3 | h3 | h3
      · exact .inl ⟨h3, hside⟩
      · exact .inr (.inl h3)
      · exact .inr (.inr (.inl (by omega)))
      · exact .inr (.inr (.inr h3))
    refine ⟨hwhole', ?_, ?_⟩
    · rwa [ha, hsame (v.start - 1) (.inl (by omega))]
    · rcases Nat.lt_or_ge v.stop c with hb | hb
      · rwa [ha, hsame v.stop (.inl hb)]
      · obtain rfl : c = v.stop := by omega
        refine absurd ?_ hafter
        rw [newProt_of_in hlo.le hc]
        rcases hwhole with ⟨h3, -⟩ | h3 | h3 | h3
        · rw [newProt_of_in h3 (by omega)]
        · omega
        · omega
        · unfold newProt
          split
          · rfl
          · exact h3.symm
  · rcases Nat.lt_or_ge v.start hi with hin | hin
    · -- inside of the range, behind a byte of it
      rcases hbefore with h0 | hb
      · omega
      · exact absurd ((newProt_of_in (by omega) (by omega)).trans
          (newProt_of_in (by omega) hin).symm) hb
    · have ha := hsame v.start (.inr hin)
      refine ⟨.inr (.inr (.inl hside)), ?_, ?_⟩
      · rcases Nat.lt_or_ge hi v.start with hgt | hge
        · rwa [ha, hsame (v.start - 1) (.inr (by omega))]
        · have hs : v.start = hi := by omega
          refine .inr ?_
          rw [newProt_of_out (.inr (by omega)), newProt_of_out (.inr hside), hold, hs]
          exact hst.before_ne happ h hlo hc hcov hv hs
      · rwa [ha, hsame v.stop (.inr (by omega))]

theorem HwState.vmmProtectUser_regular {m : Mmu σ} {s s' : HwState σ} (h : Regular s.as)
    (hr : vmmProtectUser m s base size prot = .ok (st, old, s')) : Regular s'.as := by
  obtain ⟨st', old', s'', hr', hres⟩ := vmmProtectUser_effect (m := m) h base size prot
  rw [hr] at hr'
  cases Outcome.ok.inj hr'
  rcases hres with ⟨-, rfl⟩ | ⟨-, ⟨-, ha⟩ | ⟨-, c, -, -, ha, -⟩⟩
  · exact h
  · exact ha.regular
  · exact ha.regular

/-- **What `vmm_protect_user` leaves of a VAD**: all of it if the protections after the call are as
`ViewKept` says, and only then if the call succeeds. -/
theorem HwState.vmmProtectUser_whole {m : Mmu σ} {s s' : HwState σ} (h : Regular s.as)
    (hv : v ∈ s.as.slots) (hr : vmmProtectUser m s base size prot = .ok (st, old, s')) :
    ((Covered s.as.slots base size → ViewKept s.as.slots v.start v.stop (pageAlignDown base)
        (pageAlignDown base + pageAlignUp size) prot) → Whole s'.as.slots v.start v.stop) ∧
    (st = .success → Whole s'.as.slots v.start v.stop → ViewKept s.as.slots v.start v.stop
      (pageAlignDown base) (pageAlignDown base + pageAlignUp size) prot) := by
  have happ := h.vads.apart
  have hlt := h.noneEmpty v hv
  obtain ⟨st', old', s'', hr', hres⟩ := vmmProtectUser_effect (m := m) h base size prot
  rw [hr] at hr'
  cases Outcome.ok.inj hr'
  rcases hres with ⟨hne, rfl⟩ | ⟨hcov, hres⟩
  · exact ⟨fun _ => ⟨v, hv, rfl, rfl⟩, fun hst => absurd hst hne⟩
  have hpos := hcov.1
  rcases hres with ⟨-, ha⟩ | ⟨hne, c, hlo, hc, ha, hst⟩
  · have hiff := ha.whole_iff happ hv hlt (by omega)
    exact ⟨fun hk => hiff.2 (hk hcov), fun _ => hiff.1⟩
  · refine ⟨fun hk => ?_, fun hst => absurd hst hne⟩
    have hbytes : ∀ x, pageAlignDown base ≤ x → x < pageAlignDown base + pageAlignUp size →
        ∃ u ∈ s.as.slots, u.Has x := by
      intro x h1 h2
      by_contra hno
      exact hcov.2 ⟨x, h1, h2, fun u hu hhas => hno ⟨u, hu, hhas⟩⟩
    exact (ha.whole_iff happ hv hlt hlo).2 (hst.viewKept ha h hlo hc hbytes hv (hk hcov))

end

end Aegis
