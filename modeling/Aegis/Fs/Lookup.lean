import Aegis.Fs.Vfs

/-!
# What a path leads to, and the locals of `vfs_open`

The components of an absolute path name the entries to follow from the root. `walk` copies a
component into `comp[NAME_MAX]`, 63 bytes in a round; what is left of it is the next component.

`vfs_open` does not set `parent`, `v` and `leaf` before it calls `walk`, which sets them when it
succeeds. `openFrom` is `vfs_open` with what they hold until then.
-/

namespace Aegis

/-- A component that `path_norm` keeps. -/
def Component (c : Name) : Prop := c ≠ [] ∧ c ≠ [dot] ∧ c ≠ [dot, dot] ∧ slash ∉ c
  deriving Decidable

def absPath (parts : List Name) : Name := slash :: [slash].intercalate parts

/-- A name in pieces of 63 bytes, the last of them of what is left. -/
def pieces (c : Name) : List Name :=
  (List.range ((c.length + (nameMax - 2)) / (nameMax - 1))).map fun i =>
    (c.drop ((nameMax - 1) * i)).take (nameMax - 1)

namespace Vfs

/-- The entries with these names lead from `d` to `v`. -/
def Follows (s : Vfs) : Nat → List Name → Nat → Prop
  | d, [], v => v = d
  | d, name :: names, v =>
    ∃ c ∈ (s.vnode d).children, (s.vnode c).name = name ∧ s.Follows c names v

/-- `walk` succeeds and sets `*leaf` to `v`. -/
def Yields (s : Vfs) (abs : Name) (lastMustExist : Bool) (v : Nat) : Prop :=
  ∃ w, s.walk abs lastMustExist = .ok (.success, some w) ∧ w.leaf = some v

/-- A pointer to no vnode is followed: `v`, or `parent` when a vnode has been made for it. -/
def Wild (s : Vfs) (w : Walked) (disp : BitVec 32) (heap : Bool) : Prop :=
  match w.leaf with
  | some v => s.nvnode ≤ v
  | none => disp ≠ fileOpen ∧ w.name ≠ [] ∧ heap = true ∧ s.nvnode ≤ w.parent

instance (s : Vfs) (w : Walked) (disp : BitVec 32) (heap : Bool) : Decidable (s.Wild w disp heap) :=
  match w with
  | ⟨_, some v, _⟩ => inferInstanceAs (Decidable (s.nvnode ≤ v))
  | ⟨parent, none, name⟩ => inferInstanceAs
    (Decidable (disp ≠ fileOpen ∧ name ≠ [] ∧ heap = true ∧ s.nvnode ≤ parent))

/-- `vfs_open`, with `locals` in `parent`, `v` and `leaf` at first. -/
def openFrom (s : Vfs) (locals : Walked) (cwd path : Name) (access : Access) (disp opts : BitVec 32)
    (heap fileHeap : Bool) : Outcome (Status × Option Nat × Vfs) :=
  match pathNorm cwd path with
  | none => .ok (.nameTooLong, none, s)
  | some abs => do
    let r ← s.walk abs (disp = fileOpen)
    if r.1 ≠ .success ∧ disp = fileOpen then return (r.1, none, s)
    else if s.Wild (r.2.getD locals) disp heap then .fault
    else s.openWalked (r.2.getD locals) access disp opts heap fileHeap

end Vfs

end Aegis
