import Aegis.Lib.Run
import Aegis.Mm.VmmHost
import Aegis.Mm.VmmHw

/-!
# What user memory is for

A user's memory is a partial map from page numbers to a protection and 4096 bytes. `Effect` says what
each call does to it, in these terms only.
-/

namespace Aegis

/-- The pages of the user. -/
abbrev UserMap := Nat → Option (Prot × Page)

def zeroPage : Page := fun _ => 0

/-- The page starts in `[lo, hi)`. -/
def InRange (lo hi q : Nat) : Prop := lo ≤ q * 4096 ∧ q * 4096 < hi
  deriving Decidable

namespace UserMap

/-- The pages of `[lo, hi)` become what `f` makes of them. -/
def onRange (M : UserMap) (lo hi : Nat) (f : Option (Prot × Page) → Option (Prot × Page)) : UserMap :=
  fun q => if InRange lo hi q then f (M q) else M q

/-- The bytes `src` stand at `va`. -/
def write (M : UserMap) (va : Nat) (src : List UInt8) : UserMap := fun q =>
  (M q).map fun x => (x.1, fun o =>
    if o < 4096 ∧ va ≤ q * 4096 + o ∧ q * 4096 + o < va + src.length then
      src.getD (q * 4096 + o - va) 0
    else x.2 o)

def byte (M : UserMap) (a : Nat) : Option UInt8 := (M (a / 4096)).map fun x => x.2 (a % 4096)

/-- Every page of `[lo, hi)` is there. -/
def Covers (M : UserMap) (lo hi : Nat) : Prop := ∀ q, InRange lo hi q → (M q).isSome

end UserMap

/-! ## Calls -/

/-- The calls that change the VADs. -/
inductive RangeCall
  | alloc (base size : Nat) (prot : Prot) (type : Nat)
  | free (base size : Nat)
  | protect (base size : Nat) (prot : Prot)
  deriving DecidableEq, Repr

/-- An address that is asked for is that of a page, and the size can be rounded up. -/
def RangeCall.Legal : RangeCall → Prop
  | .alloc base size _ _ => base % 4096 = 0 ∧ size ≤ 2 ^ 64 - 4096
  | .free base size => base % 4096 = 0 ∧ size ≤ 2 ^ 64 - 4096
  | .protect base size _ => base % 4096 = 0 ∧ size ≤ 2 ^ 64 - 4096

instance (c : RangeCall) : Decidable c.Legal := by
  cases c <;> exact inferInstanceAs (Decidable (_ ∧ _))

/-- The calls of a run. -/
inductive MemCall
  | range (c : RangeCall)
  | write (va : Nat) (src : List UInt8)
  | read (va n : Nat)
  deriving DecidableEq, Repr

/-- Addresses are `u64`. -/
def MemCall.Legal : MemCall → Prop
  | .range c => c.Legal
  | .write va _ => va < 2 ^ 64
  | .read va _ => va < 2 ^ 64

instance (c : MemCall) : Decidable c.Legal := by
  cases c <;> simp only [MemCall.Legal] <;> infer_instance

/-- What a call returns: its status, the address of `vmm_alloc_user` and the bytes of
`vmm_read_aspace`. -/
structure Reply where
  status : Status
  va : Nat := 0
  bytes : List UInt8 := []
  deriving DecidableEq, Repr

namespace Host

variable (oom : Nat → Bool)

def rangeCall (s : Host) : RangeCall → Outcome (Reply × Host)
  | .alloc base size prot type =>
    let r := s.vmmAllocUser base size prot type
    .ok ({ status := r.1, va := r.2.1 }, r.2.2)
  | .free base size => do
    let (status, s) ← s.vmmFreeUser oom base size
    return ({ status }, s)
  | .protect base size prot => do
    let (status, _, s) ← s.vmmProtectUser oom base size prot
    return ({ status }, s)

/-- One call, with its reply. -/
def call (s : Host) : MemCall → Outcome (Reply × Host)
  | .range c => s.rangeCall oom c
  | .write va src => do
    let (status, s) ← s.vmmWriteAspace oom va src
    return ({ status }, s)
  | .read va n => do
    let (status, bytes, s) ← s.vmmReadAspace oom va n
    return ({ status, bytes }, s)

def step (s : Host) (c : MemCall) : Option Host :=
  match s.call oom c with
  | .ok r => some r.2
  | _ => none

end Host

namespace HwState

variable {σ : Type} (m : Mmu σ)

def step (s : HwState σ) : RangeCall → Option (HwState σ)
  | .alloc base size prot type => some (vmmAllocUser m s base size prot type).2.2
  | .free base size => some (vmmFreeUser m s base size).2
  | .protect base size prot =>
    match vmmProtectUser m s base size prot with
    | .ok r => some r.2.2
    | _ => none

end HwState

/-! ## Sound VADs -/

/-- What the VADs of an address space are. -/
structure VadsSound {α : Type} (as : Aspace α) : Prop where
  count : as.slots.length ≤ maxVads
  aligned : ∀ v ∈ as.slots, v.start % pageSize = 0 ∧ v.stop % pageSize = 0
  lt : ∀ v ∈ as.slots, v.start < v.stop
  top : ∀ v ∈ as.slots, v.stop - 1 ≤ userCanonicalTop
  disjoint : as.slots.Pairwise fun v u => v.stop ≤ u.start ∨ u.stop ≤ v.start
  committed : as.committedPages = (as.slots.map fun v => (v.stop - v.start) / pageSize).sum
  limit : as.committedPages ≤ userCommitMax / pageSize

/-! ## The effect of a call -/

/-- The end of the range of `vmm_free_user` at `base`, in the VAD `v`; without a size it is all of
the VAD, which starts there. -/
structure FreeRange (v : Vad) (base size stop : Nat) : Prop where
  start_le : v.start ≤ base
  le_stop : stop ≤ v.stop
  whole : size = 0 → v.start = base ∧ stop = v.stop
  part : size ≠ 0 → stop = base + pageAlignUp size

/-- What a call that returns `r` makes of the map `M`, with the VADs `l`. -/
def Effect {α : Type} (l : List (Slot α)) (M : UserMap) (r : Reply) (M' : UserMap) : MemCall → Prop
  | .range (.alloc base size prot _) =>
    if r.status = .success then
      (base ≠ 0 → r.va = base) ∧ (∀ q, InRange r.va (r.va + pageAlignUp size) q → M q = none) ∧
        M' = M.onRange r.va (r.va + pageAlignUp size) fun _ => some (prot, zeroPage)
    else M' = M
  | .range (.free base size) =>
    if r.status = .success then
      ∃ v ∈ l, ∃ stop, FreeRange v.toVad (pageAlignDown base) size stop ∧
        M.Covers (pageAlignDown base) stop ∧ M' = M.onRange (pageAlignDown base) stop fun _ => none
    else M' = M
  | .range (.protect base size prot) =>
    let stop := pageAlignDown base + pageAlignUp size
    if r.status = .success then
      M.Covers (pageAlignDown base) stop ∧
        M' = M.onRange (pageAlignDown base) stop fun x => x.map fun x => (prot, x.2)
    else
      ∀ q, M' q = M q ∨
        InRange (pageAlignDown base) stop q ∧ M' q = (M q).map fun x => (prot, x.2)
  | .write va src =>
    ∃ k, k ≤ src.length ∧ (r.status = .success → k = src.length) ∧
      (∀ j < k, (M.byte (va + j)).isSome) ∧ M' = M.write va (src.take k)
  | .read va n =>
    r.bytes.length ≤ n ∧ (r.status = .success → r.bytes.length = n) ∧
      (∀ j < r.bytes.length, M.byte (va + j) = r.bytes[j]?) ∧ M' = M

end Aegis
