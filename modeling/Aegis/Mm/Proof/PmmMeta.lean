import Aegis.Mm.Proof.PmmInit

/-!
# Where `pmm_init` puts the frame array

The hardware build takes the first available entry of the map in which the array fits behind 1 MiB.
The kernel image is not looked at: its frames are reserved later, when the array has already been
cleared (`framesPhys_safe_iff`).
-/

namespace Aegis

variable {map : List MmapEntry}

open Pmm

/-- `g_nframes` for a memory map. -/
def mapFrames (map : List MmapEntry) : Nat :=
  sub64 (pageAlignDown (scanMap map).2) (pageAlignDown (scanMap map).1) >>> pageShift

/-- The size of the frame array in whole pages. -/
def framesSize (map : List MmapEntry) : Nat := pageAlignUp (u64 (mapFrames map * 8))

/-- `g_frames_phys`, the address of the frame array. -/
def framesPhys (map : List MmapEntry) : Nat := stealMeta map (framesSize map)

/-- The frame array is in one available entry, above 1 MiB, and apart from the kernel image. -/
structure FramesSafe (map : List MmapEntry) (kphys ksize : Nat) : Prop where
  entry : ∃ e ∈ map, e.type = 1 ∧ e.base ≤ framesPhys map ∧
    framesPhys map + framesSize map ≤ e.base + e.length
  low : 0x100000 ≤ framesPhys map
  kernel : ∀ a, framesPhys map ≤ a → a < framesPhys map + framesSize map →
    ¬ (kphys ≤ a ∧ a < kphys + ksize)

/-! ## The first entry with room -/

/-- The first whole page of an entry, but not below 1 MiB. -/
def entryStart (e : MmapEntry) : Nat := max (pageAlignUp e.base) 0x100000

/-- The test of `pmm_init` for room in an entry, on `u64`. -/
def hasRoom (size : Nat) (e : MmapEntry) : Bool :=
  e.type = 1 ∧ u64 (entryStart e + size) ≤ u64 (e.base + e.length)

/-- A sum of the test wraps: the entry starts in the last page of all, or the array ends behind it. -/
def RoomWraps (size : Nat) (e : MmapEntry) : Prop :=
  2 ^ 64 ≤ e.base + 4095 ∨ 2 ^ 64 ≤ entryStart e + size

/-- Of the first entry that passes the test, the first `framesSize` bytes are apart from the kernel
image; if a sum of the test wraps, they must be in some available entry all the same. -/
def RoomApart (map : List MmapEntry) (kphys ksize : Nat) : Prop :=
  ∀ e, map.find? (hasRoom (framesSize map)) = some e →
    (RoomWraps (framesSize map) e → ∃ r ∈ map, r.type = 1 ∧ r.base ≤ entryStart e ∧
      entryStart e + framesSize map ≤ r.base + r.length) ∧
    (ksize = 0 ∨ kphys + ksize ≤ entryStart e ∨ entryStart e + framesSize map ≤ kphys)

theorem stealMeta_eq (map : List MmapEntry) (size : Nat) :
    stealMeta map size = ((map.find? (hasRoom size)).map entryStart).getD 0 := by
  induction map with
  | nil => rfl
  | cons e map ih =>
    have hmax : entryStart e =
        if pageAlignUp e.base < 0x100000 then 0x100000 else pageAlignUp e.base := by
      unfold entryStart
      split <;> omega
    unfold stealMeta
    dsimp only
    rw [List.find?_cons, hasRoom]
    by_cases ht : e.type = 1
    · rw [if_neg (not_not.2 ht), ← hmax]
      by_cases hr : u64 (entryStart e + size) ≤ u64 (e.base + e.length)
      · simp [ht, hr]
      · simp [ht, hr, ih]
    · simp [ht, ih]

/-- Where no sum wraps, the entry that passes the test holds the array. -/
theorem room_of_not_wraps {size : Nat} {e : MmapEntry} (he : map.find? (hasRoom size) = some e)
    (hw : ¬ RoomWraps size e) : ∃ r ∈ map, r.type = 1 ∧ r.base ≤ entryStart e ∧
      entryStart e + size ≤ r.base + r.length := by
  have hroom := List.find?_some he
  obtain ⟨ht, hr⟩ := of_decide_eq_true hroom
  obtain ⟨hb, hend⟩ := not_or.1 hw
  refine ⟨e, List.mem_of_find?_eq_some he, ht, ?_, ?_⟩
  · rw [entryStart, pageAlignUp_of_le (by omega)]
    omega
  · rw [u64_of_lt (by omega)] at hr
    exact hr.trans (Nat.mod_le _ _)

theorem entryStart_low (e : MmapEntry) : 0x100000 ≤ entryStart e := Nat.le_max_right _ _

/-! ## `pmm_init` up to the entries -/

theorem initFrames_hardware {kphys ksize : Nat}
    (h : ∀ m, pmmInit .hardware map kphys ksize ≠ .panic m) :
    4096 ≤ mapFrames map ∧ framesPhys map ≠ 0 := by
  have hi : ∀ m, initFrames .hardware map kphys ksize ≠ .panic m := by
    intro m he
    exact h m (by rw [pmmInit, he]; rfl)
  unfold initFrames at hi
  simp only at hi
  split at hi
  · exact absurd rfl (hi _)
  · split at hi
    · exact absurd rfl (hi _)
    · next hn =>
      split at hi
      · exact absurd rfl (hi _)
      · next hm => exact ⟨Nat.le_of_not_lt hn, hm⟩

theorem addRegion_nframes (s : Pmm) (e : MmapEntry) : (s.addRegion e).nframes = s.nframes := by
  simp only [addRegion, apply_ite Pmm.nframes, fillState, ite_self]

theorem foldl_addRegion_nframes (map : List MmapEntry) (s : Pmm) :
    (map.foldl addRegion s).nframes = s.nframes := by
  induction map generalizing s with
  | nil => rfl
  | cons e map ih => rw [List.foldl_cons, ih, addRegion_nframes]

theorem initFrames_returns (kphys ksize : Nat)
    (hram : ¬ ((scanMap map).1 = 2 ^ 64 - 1 ∨ (scanMap map).2 ≤ (scanMap map).1))
    (hn : 4096 ≤ mapFrames map) (hm : framesPhys map ≠ 0) :
    ∃ s, initFrames .hardware map kphys ksize = .ok s ∧ s.nframes = mapFrames map := by
  have hframes : sub64 (pageAlignDown (scanMap map).2) (pageAlignDown (scanMap map).1) >>> pageShift =
      mapFrames map := rfl
  have hphys : stealMeta map (pageAlignUp (u64 (mapFrames map * 8))) = framesPhys map := rfl
  unfold initFrames
  simp only [if_neg hram, hframes, hphys, if_neg hm, if_neg (Nat.not_lt.2 hn)]
  refine ⟨_, rfl, ?_⟩
  simp only [reserve, fillState]
  rw [foldl_addRegion_nframes]

theorem mapFrames_lt (map : List MmapEntry) : mapFrames map < 2 ^ 52 := by
  unfold mapFrames
  rw [Nat.shiftRight_eq_div_pow]
  have := sub64_lt (pageAlignDown (scanMap map).2) (pageAlignDown (scanMap map).1)
  exact Nat.div_lt_of_lt_mul this

theorem framesSize_pos (h : 4096 ≤ mapFrames map) : 0 < framesSize map := by
  have hlt := mapFrames_lt map
  unfold framesSize
  rw [u64_of_lt (by omega), pageAlignUp_of_le (by omega)]
  omega

/-- **The frame array is safe exactly where the entry that is taken has room apart from the kernel
image.** -/
theorem framesPhys_safe_iff {map : List MmapEntry} {kphys ksize : Nat}
    (h : ∀ m, pmmInit .hardware map kphys ksize ≠ .panic m) :
    FramesSafe map kphys ksize ↔ RoomApart map kphys ksize := by
  obtain ⟨hn, hm⟩ := initFrames_hardware h
  have hpos := framesSize_pos hn
  have heq := stealMeta_eq map (framesSize map)
  change framesPhys map = _ at heq
  cases hf : map.find? (hasRoom (framesSize map)) with
  | none =>
    rw [hf] at heq
    exact absurd heq hm
  | some e =>
    rw [hf] at heq
    change framesPhys map = entryStart e at heq
    constructor
    · intro hs e' he'
      rw [hf] at he'
      obtain rfl := Option.some.inj he'
      refine ⟨fun _ => heq ▸ hs.entry, ?_⟩
      by_contra hk
      refine hs.kernel (max (entryStart e) kphys) ?_ ?_ ?_ <;> omega
    · intro hr
      obtain ⟨hwrap, hk⟩ := hr e hf
      have hin := or_not.elim hwrap (room_of_not_wraps hf)
      refine ⟨heq.symm ▸ hin, heq.symm ▸ entryStart_low e, fun a h1 h2 hka => ?_⟩
      omega

/-- A machine with 256 MiB, and the kernel image behind its boot part at 1 MiB. -/
def pcMap : List MmapEntry := [⟨0, 0x9FC00, 1⟩, ⟨0x9FC00, 0x60400, 2⟩, ⟨0x100000, 0xFF00000, 1⟩]

theorem pmmInit_pcMap (kphys ksize : Nat) : ∃ s, pmmInit .hardware pcMap kphys ksize = .ok s := by
  have hn : mapFrames pcMap = 0x10000 := by decide +kernel
  obtain ⟨s, hs, hs'⟩ := @initFrames_returns pcMap kphys ksize (by decide +kernel) (by omega)
    (by decide +kernel)
  obtain ⟨s', he, -⟩ := pmmInit_returns hs (by omega)
  exact ⟨s', he⟩

/-- With the kernel image above the array. -/
theorem framesPhys_safe_high : (∃ s, pmmInit .hardware pcMap 0x1000000 0x400000 = .ok s) ∧
    FramesSafe pcMap 0x1000000 0x400000 := by
  obtain ⟨s, hs⟩ := pmmInit_pcMap 0x1000000 0x400000
  refine ⟨⟨s, hs⟩, (framesPhys_safe_iff fun m he => ?_).2 ?_⟩
  · rw [hs] at he
    cases he
  · intro e he
    have hf : (pcMap.find? (hasRoom (framesSize pcMap))).map
        (fun e => (e.base, e.length, e.type)) = some (0x100000, 0xFF00000, 1) := by
      decide +kernel
    obtain ⟨base, length, type⟩ := e
    simp only [he, Option.map_some, Option.some.injEq, Prod.mk.injEq] at hf
    obtain ⟨rfl, rfl, rfl⟩ := hf
    have hw : ¬ RoomWraps (framesSize pcMap) ⟨0x100000, 0xFF00000, 1⟩ := by
      unfold RoomWraps
      decide +kernel
    exact ⟨fun h => absurd h hw, .inr (.inr (by decide +kernel))⟩

/-- The array is laid over the kernel image of `linker.ld`. -/
theorem framesPhys_over_kernel : (∃ s, pmmInit .hardware pcMap 0x102000 0x400000 = .ok s) ∧
    framesPhys pcMap = 0x100000 ∧ ¬ FramesSafe pcMap 0x102000 0x400000 := by
  have hp : framesPhys pcMap = 0x100000 := by decide +kernel
  have hs : framesSize pcMap = 0x80000 := by decide +kernel
  refine ⟨pmmInit_pcMap _ _, hp, fun h => ?_⟩
  exact h.kernel 0x102000 (by omega) (by omega) ⟨by decide, by decide⟩

end Aegis
