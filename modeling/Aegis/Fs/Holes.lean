import Aegis.Fs.FileWrite

/-!
# The bytes of a file that no write has covered

The bytes of a fresh buffer are those that `kalloc` leaves in it: up to a page it comes from a slab
and is poisoned, a longer one is made of zeroed pages. `HoleSys` records which bytes a write has
stored, for the statement.
-/

namespace Aegis

/-- What a slab fills its objects with. -/
def poisonUninit : UInt8 := 0xAA

/-- The bytes of `kalloc(n)`. -/
def kallocFill (n : Nat) (_ : Nat) : UInt8 := if n ≤ 4096 then poisonUninit else 0

/-- A file, and which of its bytes a write has stored. -/
structure HoleSys extends FileState where
  covered : Nat → Bool

namespace HoleSys

def init (access : Nat → Access) : HoleSys := ⟨.init access, fun _ => false⟩

/-- The length of the buffer that a write of `n` bytes asks for. -/
def ncap (s : HoleSys) (f n : Nat) : Nat := s.data.grownCap (u64 (s.off f + n))

/-- `vfs_write` through `f`, with its record. -/
def write (s : HoleSys) (f : Nat) (bytes : List UInt8) (heap : Bool) : HoleSys :=
  let ncap := s.ncap f bytes.length
  let r := s.toFileState.write f bytes (kalloc ncap heap) (kallocFill ncap)
  ⟨r.2, fun i => s.covered i || (r.1 = .success && s.off f ≤ i && i < s.off f + bytes.length)⟩

end HoleSys

/-- The writes to a file. -/
inductive HoleOp
  /-- `f->offset = off` of `NtWriteFile`. -/
  | seek (f off : Nat)
  | write (f : Nat) (bytes : List UInt8) (heap : Bool)

variable (s : HoleSys)

/-- One write, or a new offset. -/
def holeStep : HoleOp → Option HoleSys
  | .seek f off => some { s with toFileState := s.setOffset f off }
  | .write f bytes heap => some (s.write f bytes heap)

/-- The ends of the writes are below 2⁶³. -/
def HoleEnv : HoleOp → Prop
  | .seek .. => True
  | .write f bytes _ => s.off f + bytes.length < 2 ^ 63

instance (s : HoleSys) (a : HoleOp) : Decidable (HoleEnv s a) := by
  cases a <;> dsimp only [HoleEnv] <;> infer_instance

/-- A byte of the file that no write has covered is 0. -/
def HoleSys.Zeroed : Prop := ∀ i < s.data.size, s.covered i = false →
  s.data.data i = 0

/-- The write is allowed, and there is a buffer for it. -/
def HoleSys.Succeeds (f n : Nat) (heap : Bool) : Prop :=
  ¬ (s.file f).Denied ∧ (s.off f + n ≤ s.data.cap ∨ kalloc (s.ncap f n) heap = true)
  deriving Decidable

/-- A write behind the end of the file is into a buffer of more than a page. -/
def HoleOk : HoleOp → Prop
  | .seek .. => True
  | .write f bytes heap => s.Succeeds f bytes.length heap → s.data.size < s.off f →
    4096 < s.off f + bytes.length ∨ 4096 < s.data.cap

instance (s : HoleSys) (a : HoleOp) : Decidable (HoleOk s a) := by
  cases a <;> dsimp only [HoleOk] <;> infer_instance

end Aegis
