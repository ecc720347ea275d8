import Aegis.Ke.Proof.MemCall
import Aegis.Ke.Views
import Aegis.Mm.Proof.RangeCalls
import Aegis.Mm.Proof.Views

/-!
# Unmapping a view

A view can be unmapped as long as its VAD is there (`unmaps_iff`). Allocating memory leaves the
VADs alone, and `vmm_protect_user` leaves one alone exactly as `ViewKept` says
(`HwState.vmmProtectUser_whole`).
-/

namespace Aegis

open Function Outcome

section
variable {σ : Type} {m : Mmu σ} {x : HwState σ} {v : Slot Unit} {base size : Nat} {prot : Prot}

/-! ## The functions of `vmm.c` -/

theorem HwState.vmmFreeUser_regular (h : Regular x.as) (base size : Nat) :
    Regular (vmmFreeUser m x base size).2.as := by
  refine ⟨vmmFreeUser_inv h.vads base size, vmmFreeUser_noneEmpty h.vads h.noneEmpty base size, ?_⟩
  rcases vmmFreeUser_cases m x base size with ⟨st, -, he⟩ | ⟨v, i, stop, nl, nm, nr, hf, he⟩
  · rw [he]
    exact h.plain
  · rw [he]
    exact h.plain.carve (freeTarget_ok hf.target).1

theorem Regular.addVad (h : Regular x.as) {va : Nat} (hb : base % 4096 = 0)
    (hs : size ≤ 2 ^ 64 - 4096) (hz : size ≠ 0)
    (ht : allocTarget x.as base (pageAlignUp size) = .ok va) (prot : Prot) :
    Regular (x.as.addVad base va (pageAlignUp size) prot memCommit ()) := by
  refine ⟨h.vads.addVad ht hb (pageAlignUp_mod size) (pageAlignUp_lt size) prot memCommit (),
    h.noneEmpty.addVad ht hz hs prot memCommit (), fun v hv => ?_⟩
  rcases List.mem_append.1 hv with hv | hv
  · exact h.plain v hv
  · rw [List.mem_singleton.1 hv]
    exact ⟨rfl, rfl⟩

/-- Allocating memory keeps the VADs that are there, even when it takes its own one back. -/
theorem HwState.vmmAllocUser_regular (h : Regular x.as) (hb : base % 4096 = 0)
    (hs : size ≤ 2 ^ 64 - 4096) (prot : Prot) :
    Regular (vmmAllocUser m x base size prot memCommit).2.2.as ∧
      ∀ v ∈ x.as.slots, v ∈ (vmmAllocUser m x base size prot memCommit).2.2.as.slots := by
  rcases vmmAllocUser_cases m x base size prot memCommit with ⟨st, -, he⟩ | ⟨va, hz, -, ht, hcase⟩
  · rw [he]
    exact ⟨h, fun _ hv => hv⟩
  have hadd := h.addVad hb hs hz ht prot
  rcases hcase with ⟨-, he⟩ | ⟨-, he⟩
  · rw [he]
    exact ⟨hadd, fun v hv => List.mem_append_left _ hv⟩
  rw [he]
  refine ⟨vmmFreeUser_regular hadd va (pageAlignUp size), fun v hv => ?_⟩
  generalize (commitLoop m (pageAlignUp size / pageSize) va x.mmu).2 = d
  have hmem : v ∈ (x.as.addVad base va (pageAlignUp size) prot memCommit ()).slots :=
    List.mem_append_left _ hv
  rcases vmmFreeUser_cases m ⟨x.as.addVad base va (pageAlignUp size) prot memCommit (), d⟩ va
    (pageAlignUp size) with ⟨st, -, he⟩ | ⟨u, i, stop, nl, nm, nr, hf, he⟩
  · rw [he]
    exact hmem
  rw [he]
  obtain ⟨hi, hle, hcase⟩ := freeTarget_ok hf.target
  refine (carve_perm hi ..).mem_iff.2 (List.mem_append_right _ ?_)
  -- the VAD that is freed has the first byte of the new one, and `v` has not
  rcases List.mem_cons.1 ((SwapList.perm_eraseIdx hi).mem_iff.1 hmem) with rfl | hrest
  · obtain ⟨hva, hout, -, -, hover⟩ := allocTarget_ok ht
    have hnew := hadd.noneEmpty ⟨⟨va, u64 (va + pageAlignUp size), prot, memCommit, 1⟩, ()⟩
      (List.mem_append_right _ (List.mem_singleton.2 rfl))
    have htop := userCanonicalTop_eq
    have hle' := (inside_user (pageAlignUp_lt size) hout).1
    have hmod : va % 4096 = 0 := by
      have hbrk := h.vads.brk
      rw [hva]
      split <;> assumption
    have hdown : pageAlignDown va = va := by
      rw [pageAlignDown_of_lt (by omega)]
      omega
    rw [hdown] at hle hcase
    have hlt := h.noneEmpty v hv
    have hva' : va < v.stop := by
      split at hcase <;> omega
    exact absurd ⟨hva', hle.trans_lt hnew⟩ (hover v hv)
  · exact hrest

/-! ## A view and its VAD -/

theorem Freed.protOf_carve {i stop nl nm nr : Nat}
    (hf : Freed x.as (pageAlignDown base) (freeSize size) v i stop nl nm nr) (h : VadInv x.as)
    (a : Nat) :
    protOf (carve x.as.slots i v (pageAlignDown base) stop nl nr () ()) a =
      if pageAlignDown base ≤ a ∧ a < stop then none else protOf x.as.slots a := by
  have hmod := pageAlignDown_mod base
  have hinv := hf.inv h hmod (freeSize_mod size) (freeSize_lt size) () ()
  have hstop := (h.freeParts hmod (freeSize_mod size) (freeSize_lt size) hf.inside
    hf.target).2.1.stop_aligned
  rw [protOf_page hinv.ok hinv.apart, protOf_page h.ok h.apart a]
  refine (hf.protAt_carve h (a / 4096)).trans ?_
  have hiff : InRange (pageAlignDown base) stop (a / 4096) ↔ pageAlignDown base ≤ a ∧ a < stop := by
    unfold InRange
    omega
  simp only [hiff]
  rfl

theorem Regular.freed_whole (h : Regular x.as) (hv : v ∈ x.as.slots) :
    ∃ i, Freed x.as (pageAlignDown v.start) (freeSize 0) v i v.stop 0 v.pages 0 := by
  have hok := h.vads.ok v hv
  have hlt := h.noneEmpty v hv
  have htop := userCanonicalTop_eq
  have h1 := hok.start
  have h2 := hok.top
  have hdown : pageAlignDown v.start = v.start := by
    rw [pageAlignDown_of_lt (by omega)]
    omega
  have hin : outsideUser v.start 0 = false := by
    unfold outsideUser
    rw [Nat.add_zero, u64_of_lt (by omega)]
    simp only [decide_eq_false_iff_not]
    omega
  rw [hdown]
  show ∃ i, Freed x.as v.start 0 v i v.stop 0 v.pages 0
  cases hfind : SwapList.findAt (fun u : Slot Unit => u.start = v.start) x.as.slots with
  | none =>
    have := SwapList.findAt_none hfind v hv
    simp at this
  | some r =>
    obtain ⟨u, i⟩ := r
    obtain ⟨hus, hi⟩ := SwapList.findAt_some hfind
    have hu := List.mem_of_getElem? hi
    simp only [decide_eq_true_eq] at hus
    obtain rfl : u = v := h.vads.apart.eq_of_mem (x := v.start) hu hv
      ⟨hus.le, by have := h.noneEmpty u hu; omega⟩ ⟨le_rfl, hlt⟩
    refine ⟨i, hin, ?_, rfl, ?_, rfl, ?_, ?_⟩
    · rw [freeTarget, if_pos rfl, hfind]
    · rw [if_pos rfl, h.vads.pagesBetween hv le_rfl hlt.le le_rfl]
      rfl
    · have h3 := hok.stop
      unfold Vad.pages
      omega
    · have := h.vads.count
      simpa using this

namespace MemSys

variable {s : MemSys σ} {p a b : Nat}
variable {q : Nat} {op : MemOp} {sec : Handle}

theorem processFor_current (s : MemSys σ) (p : Nat) :
    s.processFor (some p) handleCurrent = .ok (.ok (some p), s) := by
  unfold processFor World.processArg
  rfl

theorem ntUnmapViewOfSection_eq {c : Nat} {proc : Handle} {s1 : MemSys σ}
    (h : s.processFor (some c) proc = .ok (.ok (some p), s1)) (a : Nat) :
    s.ntUnmapViewOfSection m (some c) proc a =
      .ok (((s.mem p).vmmFreeUser m a 0).1, s1.setMem p ((s.mem p).vmmFreeUser m a 0).2) := by
  have hmem := (processFor_mem h).1
  unfold ntUnmapViewOfSection ntFreeVirtualMemory
  simp only
  rw [h, ok_bind, ← hmem]
  rfl

theorem unmaps_iff (h : Regular (s.mem p).as) (ha : a % 4096 = 0) (hlt : a < 2 ^ 64) :
    s.Unmaps m p a b ↔ Whole (s.mem p).as.slots a b := by
  have hdown : pageAlignDown a = a := by
    rw [pageAlignDown_of_lt hlt]
    omega
  constructor
  · intro hu
    obtain ⟨s', hs', hbytes, -, -⟩ := hu p handleCurrent s (processFor_current s p)
    rw [ntUnmapViewOfSection_eq (processFor_current s p)] at hs'
    rcases HwState.vmmFreeUser_cases m (s.mem p) a 0 with
      ⟨st, hne, he⟩ | ⟨v, i, stop, nl, nm, nr, hf, he⟩
    · rw [he] at hs'
      exact absurd (congrArg Prod.fst (ok.inj hs')) hne
    obtain ⟨hi, -, hstart, hstop⟩ := freeTarget_ok hf.target
    have hv := List.mem_of_getElem? hi
    have hvlt := h.noneEmpty v hv
    have hcarve := fun x => hf.protOf_carve h.vads x
    rw [he] at hs'
    obtain rfl := congrArg Prod.snd (ok.inj hs')
    simp only [setMem, update_self, hcarve] at hbytes
    rw [hdown] at hstart hbytes
    subst hstop
    refine ⟨v, hv, hstart, ?_⟩
    rcases lt_trichotomy v.stop b with hlt | heq | hgt
    · have hx := hbytes v.stop
      rw [if_pos ⟨by omega, hlt⟩, if_neg (by omega)] at hx
      rw [hx.2] at hx
      cases hx.1
    · exact heq
    · have hx := hbytes (max a b)
      rw [if_neg (by omega), if_pos ⟨by omega, by omega⟩,
        protOf_of_mem h.vads.apart hv ⟨by omega, by omega⟩] at hx
      cases hx
  · rintro ⟨v, hv, rfl, rfl⟩ c proc s1 hp
    obtain ⟨i, hf⟩ := h.freed_whole hv
    have he := HwState.vmmFreeUser_of_freed (m := m) hf
    have hcarve := fun x => hf.protOf_carve h.vads x
    have hmem := (processFor_mem hp).1
    rw [hdown] at he hcarve
    rw [ntUnmapViewOfSection_eq hp, he]
    refine ⟨_, rfl, fun x => ?_, ?_, fun q hq => ?_⟩
    · simp only [setMem, update_self, hcarve]
      split
      · next hin => exact ⟨by rw [protOf_of_mem h.vads.apart hv hin]; rfl, rfl⟩
      · rfl
    · simp only [setMem, update_self]
      rfl
    · simp only [setMem, update_of_ne hq, hmem]

/-! ## The calls -/

variable {s' : MemSys σ} {cur : Option Nat} {proc : Handle} {base size va : Nat} {prot : Prot}
  {st : Status}

theorem ntAllocateVirtualMemory_effect
    (h : s.ntAllocateVirtualMemory m cur proc base size prot = .ok (st, va, s')) :
    s'.sec = s.sec ∧ (s'.mem = s.mem ∨ ∃ q, s'.mem = update s.mem q
      ((s.mem q).vmmAllocUser m base size (allocProt prot) memCommit).2.2) := by
  unfold ntAllocateVirtualMemory at h
  obtain ⟨⟨r, s1⟩, hp, h⟩ := bind_eq_ok.1 h
  obtain ⟨hmem, hsec⟩ := processFor_mem hp
  match r with
  | .error st' =>
    cases h
    exact ⟨hsec, .inl hmem⟩
  | .ok none =>
    cases h
    exact ⟨hsec, .inl hmem⟩
  | .ok (some q) =>
    simp only at h
    split at h
    · cases h
      exact ⟨hsec, .inl hmem⟩
    · rw [show (if prot ≠ 0 then prot else pageReadWrite) = allocProt prot from rfl, hmem] at h
      generalize hx : (s.mem q).vmmAllocUser m base size (allocProt prot) memCommit = x at h
      cases h
      refine ⟨hsec, .inr ⟨q, ?_⟩⟩
      rw [hx, ← hmem]
      rfl

theorem ntMapViewOfSection_effect
    (h : s.ntMapViewOfSection m cur sec proc base size prot = .ok (st, va, s')) :
    s'.sec = s.sec ∧ (s'.mem = s.mem ∨ ∃ q so pr d, s'.mem = update s.mem q
        ⟨((s.mem q).vmmAllocUser m base (mapSize (s.sec so) size) pr memCommit).2.2.as, d⟩ ∧
      (st = .success → ((s.mem q).vmmAllocUser m base (mapSize (s.sec so) size) pr memCommit).1 =
          .success ∧
        ((s.mem q).vmmAllocUser m base (mapSize (s.sec so) size) pr memCommit).2.1 = va)) := by
  unfold ntMapViewOfSection at h
  split at h
  · cases h
    exact ⟨rfl, .inl rfl⟩
  split at h
  · cases h
    exact ⟨rfl, .inl rfl⟩
  next so w hso =>
  obtain ⟨⟨r, s1⟩, ht, h⟩ := bind_eq_ok.1 h
  obtain ⟨hmem, hsec⟩ := mapTarget_mem ht
  replace hmem : s1.mem = s.mem := hmem
  replace hsec : s1.sec = s.sec := hsec
  match r with
  | .error st' =>
    cases h
    exact ⟨hsec, .inl hmem⟩
  | .ok q =>
    simp only [mapInto] at h
    rw [hmem, hsec] at h
    generalize (if prot ≠ 0 then prot else (s.sec so).prot) = pr at h
    generalize hx : (s.mem q).vmmAllocUser m base (mapSize (s.sec so) size) pr memCommit = x at h
    split at h
    · next hf =>
      obtain ⟨w', -, h⟩ := bind_eq_ok.1 h
      cases h
      refine ⟨hsec, .inr ⟨q, so, pr, x.2.2.mmu, ?_, ?_⟩⟩
      · rw [hx, ← hmem]
        rfl
      · intro hst
        rw [(ntSuccess_iff x.1).2 hst] at hf
        cases hf
    · next hf =>
      obtain ⟨w', -, h⟩ := bind_eq_ok.1 h
      cases h
      refine ⟨hsec, .inr ⟨q, so, pr, (x.2.2.vmmWriteAspace m x.2.1 (mapSize (s.sec so) size)).2.mmu,
        ?_, fun _ => ?_⟩⟩
      · rw [hx, ← hmem]
        rfl
      · rw [hx]
        exact ⟨(ntSuccess_iff x.1).1 (by simpa using hf), rfl⟩

theorem ntProtectVirtualMemory_effect
    (h : s.ntProtectVirtualMemory m cur proc base size prot = .ok (st, s')) :
    s'.sec = s.sec ∧ (st ≠ .success ∧ s'.mem = s.mem ∨ ∃ q old x,
      (s.world.processArg cur proc processVmOperation).2.1 = some q ∧
      (s.mem q).vmmProtectUser m base size prot = .ok (st, old, x) ∧
      s'.mem = update s.mem q x) := by
  unfold ntProtectVirtualMemory at h
  simp only at h
  split at h
  · next hf =>
    cases h
    exact ⟨rfl, .inl ⟨(ntSuccess_eq_false _).1 hf, rfl⟩⟩
  split at h
  · cases h
    exact ⟨rfl, .inl ⟨by decide, rfl⟩⟩
  next q hq =>
  split at h
  · obtain ⟨w, -, h⟩ := bind_eq_ok.1 h
    cases h
    exact ⟨rfl, .inl ⟨by decide, rfl⟩⟩
  · obtain ⟨⟨st', old, x⟩, hr, h⟩ := bind_eq_ok.1 h
    simp only at h
    obtain ⟨w, -, h⟩ := bind_eq_ok.1 h
    cases h
    exact ⟨rfl, .inr ⟨q, old, x, hq, hr, rfl⟩⟩

/-! ## Runs -/

/-- What holds of the system whatever the calls. -/
structure ViewInv (s : MemSys σ) : Prop where
  regular : ∀ p, Regular (s.mem p).as
  sec : ∀ o, (s.sec o).size ≤ 2 ^ 64 - 4096

theorem init_viewInv (w : World) (mmu : Nat → σ) : ViewInv (init w mmu) where
  regular _ := ⟨Aspace.init_inv Unit, (fun _ hv => by cases hv), (fun _ hv => by cases hv)⟩
  sec _ := Nat.zero_le _

theorem pageAlignUp_le (n : Nat) : pageAlignUp n ≤ 2 ^ 64 - 4096 := by
  have h1 := pageAlignUp_mod n
  have h2 := pageAlignUp_lt n
  omega

section
variable (h : ViewInv s)
include h

theorem ViewInv.mapSize_le (o size : Nat) : mapSize (s.sec o) size ≤ 2 ^ 64 - 4096 := by
  have h1 := h.sec o
  have h2 := pageAlignUp_le size
  unfold mapSize
  simp only
  split_ifs <;> omega

theorem ViewInv.update (hsec : s'.sec = s.sec) (hmem : s'.mem = Function.update s.mem q x)
    (hx : Regular x.as) : ViewInv s' where
  regular p := by
    rw [hmem]
    rcases eq_or_ne p q with rfl | hne
    · rwa [update_self]
    · rw [update_of_ne hne]
      exact h.regular p
  sec := by
    rw [hsec]
    exact h.sec

theorem ViewInv.same (hsec : s'.sec = s.sec) (hmem : s'.mem = s.mem) :
    ViewInv s' := ⟨fun p => by rw [hmem]; exact h.regular p, fun o => by rw [hsec]; exact h.sec o⟩

theorem ViewInv.alloc {n : Nat} {pr : Prot} {d : σ} (hb : base % 4096 = 0)
    (hn : n ≤ 2 ^ 64 - 4096) (hsec : s'.sec = s.sec) (hmem : s'.mem = Function.update s.mem q
      ⟨((s.mem q).vmmAllocUser m base n pr memCommit).2.2.as, d⟩) :
    ViewInv s' ∧ ∀ p, ∀ v ∈ (s.mem p).as.slots, v ∈ (s'.mem p).as.slots := by
  obtain ⟨hreg, hkeep⟩ := HwState.vmmAllocUser_regular (m := m) (h.regular q) hb hn pr
  refine ⟨h.update hsec hmem hreg, fun p v hv => ?_⟩
  rw [hmem]
  rcases eq_or_ne p q with rfl | hne
  · rw [update_self]
    exact hkeep v hv
  · rwa [update_of_ne hne]

theorem ntAllocateVirtualMemory_grows (hb : base % 4096 = 0) (hn : size ≤ 2 ^ 64 - 4096)
    (hr : s.ntAllocateVirtualMemory m cur proc base size prot = .ok (st, va, s')) :
    ViewInv s' ∧ ∀ p, ∀ v ∈ (s.mem p).as.slots, v ∈ (s'.mem p).as.slots := by
  obtain ⟨hsec, hmem | ⟨q, hmem⟩⟩ := ntAllocateVirtualMemory_effect hr
  · exact ⟨h.same hsec hmem, fun p v hv => by rwa [hmem]⟩
  · exact h.alloc hb hn hsec hmem

theorem ntMapViewOfSection_grows (hb : base % 4096 = 0)
    (hr : s.ntMapViewOfSection m cur sec proc base size prot = .ok (st, va, s')) :
    ViewInv s' ∧ ∀ p, ∀ v ∈ (s.mem p).as.slots, v ∈ (s'.mem p).as.slots := by
  obtain ⟨hsec, hmem | ⟨q, so, pr, d, hmem, -⟩⟩ := ntMapViewOfSection_effect hr
  · exact ⟨h.same hsec hmem, fun p v hv => by rwa [hmem]⟩
  · exact h.alloc hb (h.mapSize_le so size) hsec hmem

theorem ntFreeVirtualMemory_viewInv
    (hr : s.ntFreeVirtualMemory m cur proc base size = .ok (st, s')) : ViewInv s' := by
  unfold ntFreeVirtualMemory at hr
  obtain ⟨⟨r, s1⟩, hp, hr⟩ := bind_eq_ok.1 hr
  obtain ⟨hmem, hsec⟩ := processFor_mem hp
  have h1 := h.same hsec hmem
  match r with
  | .error st' =>
    cases hr
    exact h1
  | .ok none =>
    cases hr
    exact h1
  | .ok (some q) =>
    have hx := HwState.vmmFreeUser_regular (m := m) (h1.regular q) base size
    simp only at hr
    generalize (s1.mem q).vmmFreeUser m base size = x at hx hr
    cases hr
    exact h1.update rfl rfl hx

theorem ntProtectVirtualMemory_viewInv
    (hr : s.ntProtectVirtualMemory m cur proc base size prot = .ok (st, s')) : ViewInv s' := by
  obtain ⟨hsec, ⟨-, hmem⟩ | ⟨q, old, x, -, hx, hmem⟩⟩ := ntProtectVirtualMemory_effect hr
  · exact h.same hsec hmem
  · exact h.update hsec hmem (HwState.vmmProtectUser_regular (h.regular q) hx)

theorem memStep_viewInv (hop : op.PageBased) (hs : s.memStep m op = some s') : ViewInv s' := by
  cases op with
  | protect cur proc base size prot =>
    obtain ⟨⟨st, s1⟩, hr, rfl⟩ := Option.map_eq_some_iff.1 hs
    exact ntProtectVirtualMemory_viewInv h (get?_eq_some.1 hr)
  | newMem op =>
    cases op with
    | elfLoad p img len => exact hop.elim
    | allocate cur proc base size prot =>
      obtain ⟨⟨st, va, s1⟩, hr, rfl⟩ := Option.map_eq_some_iff.1 hs
      exact (ntAllocateVirtualMemory_grows h hop.1 hop.2 (get?_eq_some.1 hr)).1
    | createSection cur access size prot heap data =>
      obtain ⟨⟨st, out, s1⟩, hr, rfl⟩ := Option.map_eq_some_iff.1 hs
      obtain ⟨hmem, hsec⟩ := ntCreateSection_mem (get?_eq_some.1 hr)
      refine ⟨fun p => by rw [hmem]; exact h.regular p, fun o => ?_⟩
      rcases hsec o with ho | ho
      · rw [ho]
        exact h.sec o
      · rw [ho]
        exact pageAlignUp_le size
    | mapView cur sec proc base size prot =>
      obtain ⟨⟨st, va, s1⟩, hr, rfl⟩ := Option.map_eq_some_iff.1 hs
      exact (ntMapViewOfSection_grows h hop (get?_eq_some.1 hr)).1
    | unmapView cur proc base =>
      obtain ⟨⟨st, s1⟩, hr, rfl⟩ := Option.map_eq_some_iff.1 hs
      have hr := get?_eq_some.1 hr
      cases cur with
      | none =>
        cases hr
        exact h
      | some c => exact ntFreeVirtualMemory_viewInv h hr
    | free cur proc base size =>
      obtain ⟨⟨st, s1⟩, hr, rfl⟩ := Option.map_eq_some_iff.1 hs
      exact ntFreeVirtualMemory_viewInv h (get?_eq_some.1 hr)
    | setWorld w =>
      cases hs
      exact ⟨h.regular, h.sec⟩

end

theorem ViewOk.pageBased (h : ViewOk p a b s op) : op.PageBased := by
  cases op with
  | protect => trivial
  | newMem op => cases op <;> first | exact h | exact h.elim

theorem memStep_whole (h : ViewInv s) (hw : Whole (s.mem p).as.slots a b)
    (hop : ViewOk p a b s op) (hs : s.memStep m op = some s') : Whole (s'.mem p).as.slots a b := by
  obtain ⟨v, hv, rfl, rfl⟩ := hw
  cases op with
  | protect cur proc base size prot =>
    obtain ⟨⟨st, s1⟩, hr, rfl⟩ := Option.map_eq_some_iff.1 hs
    obtain ⟨-, ⟨-, hmem⟩ | ⟨q, old, x, hq, hx, hmem⟩⟩ :=
      ntProtectVirtualMemory_effect (get?_eq_some.1 hr)
    · exact ⟨v, by rwa [hmem], rfl, rfl⟩
    · simp only
      rw [hmem]
      rcases eq_or_ne p q with rfl | hne
      · rw [update_self]
        exact (HwState.vmmProtectUser_whole (h.regular p) hv hx).1 (hop hq)
      · exact ⟨v, by rwa [update_of_ne hne], rfl, rfl⟩
  | newMem op =>
    cases op with
    | elfLoad => exact hop.elim
    | unmapView => exact hop.elim
    | free => exact hop.elim
    | setWorld w =>
      cases hs
      exact ⟨v, hv, rfl, rfl⟩
    | allocate cur proc base size prot =>
      obtain ⟨⟨st, va, s1⟩, hr, rfl⟩ := Option.map_eq_some_iff.1 hs
      exact ⟨v, (ntAllocateVirtualMemory_grows h hop.1 hop.2 (get?_eq_some.1 hr)).2 p v hv,
        rfl, rfl⟩
    | createSection cur access size prot heap data =>
      obtain ⟨⟨st, out, s1⟩, hr, rfl⟩ := Option.map_eq_some_iff.1 hs
      obtain ⟨hmem, -⟩ := ntCreateSection_mem (get?_eq_some.1 hr)
      exact ⟨v, by rwa [hmem], rfl, rfl⟩
    | mapView cur sec proc base size prot =>
      obtain ⟨⟨st, va, s1⟩, hr, rfl⟩ := Option.map_eq_some_iff.1 hs
      exact ⟨v, (ntMapViewOfSection_grows h hop (get?_eq_some.1 hr)).2 p v hv, rfl, rfl⟩

theorem ntMapViewOfSection_placed
    (hr : s.ntMapViewOfSection m cur sec proc base size prot = .ok (.success, va, s'))
    (hv : (s'.mem p).as.slots = (s.mem p).as.slots ++ [v]) : v.start = va := by
  obtain ⟨-, hmem | ⟨q, so, pr, d, hmem, hst⟩⟩ := ntMapViewOfSection_effect hr
  · rw [hmem] at hv
    simp at hv
  obtain ⟨hok, hva⟩ := hst rfl
  rcases eq_or_ne p q with rfl | hne
  · rcases HwState.vmmAllocUser_cases m (s.mem p) base (mapSize (s.sec so) size) pr memCommit with
      ⟨st, hst, he⟩ | ⟨va', -, -, -, ⟨-, he⟩ | ⟨-, he⟩⟩
    · rw [he] at hok
      exact absurd hok hst
    · rw [he] at hva hmem
      rw [hmem, update_self] at hv
      obtain rfl := List.singleton_inj.1 (List.append_cancel_left hv)
      exact hva
    · rw [he] at hok
      cases hok
  · rw [hmem, update_of_ne hne] at hv
    simp at hv

end MemSys

/-- A view `[va, v.stop)` of the process `p` can be unmapped in every state that calls which do not
unmap or free anything lead to, if they ask for memory at bases of pages and `NtProtectVirtualMemory`
leaves it a VAD of its own. A successful call of it that does not leaves a view that cannot. -/
theorem unmapView_unmaps (m : Mmu σ) (w : World) (mmu : Nat → σ) {before after : List MemOp}
    {s₁ s₂ s₃ : MemSys σ} {cur : Option Nat} {sec proc : Handle} {base size va p : Nat}
    {prot : Prot} {v : Slot Unit} (hb : ∀ op ∈ before, op.PageBased)
    (h₁ : Run.run (MemSys.memStep m) (.init w mmu) before = some s₁) (hbase : base % pageSize = 0)
    (hmap : s₁.ntMapViewOfSection m cur sec proc base size prot = .ok (.success, va, s₂))
    (hv : (s₂.mem p).as.slots = (s₁.mem p).as.slots ++ [v])
    (ha : Run.Legal (MemSys.memStep m) (ViewOk p va v.stop) s₂ after)
    (h₃ : Run.run (MemSys.memStep m) s₂ after = some s₃) :
    s₃.Unmaps m p va v.stop ∧ ∀ cur proc base size prot s₄,
      (s₃.world.processArg cur proc processVmOperation).2.1 = some p →
      s₃.ntProtectVirtualMemory m cur proc base size prot = .ok (.success, s₄) →
      (s₄.Unmaps m p va v.stop ↔ ViewKept (s₃.mem p).as.slots va v.stop (pageAlignDown base)
        (pageAlignDown base + pageAlignUp size) prot) := by
  have hinv1 : s₁.ViewInv := Run.run_keeps (I := MemSys.ViewInv)
    (fun _ _ _ h hop hs => MemSys.memStep_viewInv h hop hs) (MemSys.init_viewInv w mmu)
    (Run.legal_of_forall fun op hop _ => hb op hop) h₁
  have hinv2 := (MemSys.ntMapViewOfSection_grows hinv1 hbase hmap).1
  obtain rfl := MemSys.ntMapViewOfSection_placed hmap hv
  have hmem : v ∈ (s₂.mem p).as.slots := by
    rw [hv]
    simp
  have hok := (hinv2.regular p).vads.ok v hmem
  have hlt : v.start < 2 ^ 64 := by
    have h1 := hok.le
    have h2 := hok.top
    have htop := userCanonicalTop_eq
    omega
  obtain ⟨hinv3, hw3⟩ := Run.run_keeps
    (I := fun s => MemSys.ViewInv s ∧ Whole (s.mem p).as.slots v.start v.stop)
    (fun _ _ _ h hop hs => ⟨MemSys.memStep_viewInv h.1 (MemSys.ViewOk.pageBased hop) hs,
      MemSys.memStep_whole h.1 h.2 hop hs⟩) ⟨hinv2, v, hmem, rfl, rfl⟩ ha h₃
  refine ⟨(MemSys.unmaps_iff (hinv3.regular p) hok.start hlt).2 hw3, ?_⟩
  intro cur proc base size prot s₄ hp hr
  have hinv4 := MemSys.ntProtectVirtualMemory_viewInv hinv3 hr
  rw [MemSys.unmaps_iff (hinv4.regular p) hok.start hlt]
  obtain ⟨-, ⟨hne, -⟩ | ⟨q, old, x, hq, hx, hmem4⟩⟩ := MemSys.ntProtectVirtualMemory_effect hr
  · exact absurd rfl hne
  obtain rfl : p = q := Option.some.inj (hp.symm.trans hq)
  obtain ⟨u, hu, hus, hue⟩ := hw3
  obtain ⟨hk, hk'⟩ := HwState.vmmProtectUser_whole (hinv3.regular p) hu hx
  rw [hmem4, update_self, ← hus, ← hue]
  exact ⟨hk' rfl, fun h => hk fun _ => h⟩

end

/-! ## A view and its neighbour -/

/-- A process makes a section of two pages. -/
def sectionOps : List MemOp :=
  [.newMem (.createSection (some 0) 0 0x2000 pageReadWrite true true)]

/-- It allocates the page behind the view that it has mapped, and protects it. -/
def allocNext : MemOp := .newMem (.allocate (some 0) handleCurrent 0 0x1000 pageReadWrite)

def neighbourOps : List MemOp :=
  [allocNext, .protect (some 0) handleCurrent 0x1002000 0x1000 pageReadOnly]

def mapped : Option (Status × Nat × MemSys Unit) :=
  (Run.run (MemSys.memStep freeMmu) (.init World.blank fun _ => ()) sectionOps).bind fun s =>
    (s.ntMapViewOfSection freeMmu (some 0) (handleValue 1 1) handleCurrent 0 0 0).get?

theorem unmapView_unmaps_neighbour : ∃ s₂ s₃, mapped = some (.success, 0x1000000, s₂) ∧
    Run.run (MemSys.memStep freeMmu) s₂ neighbourOps = some s₃ ∧
    s₃.Unmaps freeMmu 0 0x1000000 0x1002000 := by
  obtain ⟨s1, h1, hnil⟩ : ∃ s, Run.run (MemSys.memStep freeMmu) (.init World.blank fun _ => ())
      sectionOps = some s ∧ (s.mem 0).as.slots.length = 0 := by decide +kernel
  obtain ⟨⟨st, va, s₂⟩, h2, rfl, rfl, hslots⟩ : ∃ r, mapped = some r ∧ r.1 = .success ∧
      r.2.1 = 0x1000000 ∧ ((r.2.2.mem 0).as.slots.map fun v => v.toVad) =
        [⟨0x1000000, 0x1002000, pageReadWrite, memCommit, 1⟩] := by decide +kernel
  obtain ⟨v, hv, hvad⟩ := List.map_eq_singleton_iff.1 hslots
  obtain ⟨s₃, h3⟩ := Option.isSome_iff_exists.1 (show (mapped.bind fun r =>
    Run.run (MemSys.memStep freeMmu) r.2.2 neighbourOps).isSome = true by decide +kernel)
  have hkept : (mapped.bind fun r => r.2.2.memStep freeMmu allocNext).all
      (fun s => ViewKept (s.mem 0).as.slots 0x1000000 0x1002000 (pageAlignDown 0x1002000)
        (pageAlignDown 0x1002000 + pageAlignUp 0x1000) pageReadOnly) = true := by decide +kernel
  rw [h2, Option.bind_some] at h3 hkept
  have hmap := h2
  rw [mapped, h1, Option.bind_some] at hmap
  have hstop : v.stop = 0x1002000 := by rw [hvad]
  have hlegal : Run.Legal (MemSys.memStep freeMmu) (ViewOk 0 0x1000000 v.stop) s₂ neighbourOps := by
    refine ⟨⟨by decide, by decide⟩, fun s' hs' => ⟨fun _ _ => ?_, fun _ _ => trivial⟩⟩
    rw [hstop]
    rw [hs', Option.all_some] at hkept
    exact of_decide_eq_true hkept
  refine ⟨s₂, s₃, h2, h3, ?_⟩
  have hplaced : (s₂.mem 0).as.slots = (s1.mem 0).as.slots ++ [v] := by
    rw [List.length_eq_zero_iff.1 hnil, hv]
    rfl
  rw [← hstop]
  exact (unmapView_unmaps freeMmu World.blank (fun _ => ()) (by
    intro op hop
    rw [List.mem_singleton.1 hop]
    trivial) h1 (by decide) (get?_eq_some.1 hmap) hplaced hlegal h3).1

/-- It allocates the page behind the view, and one far away, and protects that one. -/
def farOps : List MemOp :=
  [allocNext, .newMem (.allocate (some 0) handleCurrent 0x5000000 0x1000 pageReadWrite),
    .protect (some 0) handleCurrent 0x5000000 0x1000 pageReadOnly]

/-- The call joins the view to the page behind it, and unmapping the view removes both. -/
theorem unmapView_other_page : ∃ s₂ s₃ s₄, mapped = some (.success, 0x1000000, s₂) ∧
    Run.run (MemSys.memStep freeMmu) s₂ farOps = some s₃ ∧
    s₃.ntUnmapViewOfSection freeMmu (some 0) handleCurrent 0x1000000 = .ok (.success, s₄) ∧
    protOf (s₃.mem 0).as.slots 0x1002000 = some pageReadWrite ∧
    protOf (s₄.mem 0).as.slots 0x1002000 = none ∧ ¬ s₃.Unmaps freeMmu 0 0x1000000 0x1002000 := by
  obtain ⟨⟨st, va, s₂⟩, h2, rfl, rfl, s₃, h3, hbefore, hst, hafter⟩ : ∃ r, mapped = some r ∧
      r.1 = .success ∧ r.2.1 = 0x1000000 ∧
      ∃ s, Run.run (MemSys.memStep freeMmu) r.2.2 farOps = some s ∧
        protOf (s.mem 0).as.slots 0x1002000 = some pageReadWrite ∧
        ((s.mem 0).vmmFreeUser freeMmu 0x1000000 0).1 = .success ∧
        protOf ((s.mem 0).vmmFreeUser freeMmu 0x1000000 0).2.as.slots 0x1002000 = none := by
    decide +kernel
  have hun := MemSys.ntUnmapViewOfSection_eq (m := freeMmu) (MemSys.processFor_current s₃ 0) 0x1000000
  rw [hst] at hun
  have hnone : protOf ((s₃.setMem 0 ((s₃.mem 0).vmmFreeUser freeMmu 0x1000000 0).2).mem 0).as.slots
      0x1002000 = none := by
    simp only [MemSys.setMem, update_self]
    exact hafter
  refine ⟨s₂, s₃, _, h2, h3, hun, hbefore, hnone, fun hu => ?_⟩
  obtain ⟨s', hs', hbytes, -⟩ := hu 0 handleCurrent s₃ (MemSys.processFor_current s₃ 0)
  rw [hun] at hs'
  obtain rfl := congrArg Prod.snd (ok.inj hs')
  have hbyte := hbytes 0x1002000
  rw [if_neg (by decide), hbefore] at hbyte
  rw [hnone] at hbyte
  cases hbyte

end Aegis
