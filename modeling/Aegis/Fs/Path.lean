import Aegis.Ob.Object

/-!
# Paths (`path_norm` and the component loop of `walk` in `fs/vfs.c`)

A path is the bytes of a C string. `strlcpy` and `strlcat` into a buffer of `PATH_MAX` bytes keep
the first `PATH_MAX - 1`.
-/

namespace Aegis

def pathMax : Nat := 512
def pathDepthMax : Nat := 32

def slash : UInt8 := 47

def dot : UInt8 := 46

/-- `tmp` of `path_norm`: the path itself, or behind the working directory. -/
def joinCwd (cwd path : Name) : Name :=
  if path.head? = some slash then path.take (pathMax - 1)
  else
    let tmp := cwd.take (pathMax - 1)
    let tmp := if tmp.getLast? ≠ some slash then (tmp ++ [slash]).take (pathMax - 1) else tmp
    (tmp ++ path).take (pathMax - 1)

/-- A round of the loop of `path_norm`; `none` is `STATUS_NAME_TOO_LONG`. -/
def pushPart (parts : Option (List Name)) (part : Name) : Option (List Name) :=
  parts.bind fun l =>
    if part = [] ∨ part = [dot] then some l
    else if part = [dot, dot] then some l.dropLast
    else if l.length ≥ pathDepthMax then none
    else some (l ++ [part])

/-- `path_norm`. -/
def pathNorm (cwd path : Name) : Option Name :=
  (((joinCwd cwd path).splitOn slash).foldl pushPart (some [])).map fun parts =>
    (slash :: [slash].intercalate parts).take (pathMax - 1)

/-- The next component of `walk`, of at most `k` bytes, and what follows. -/
def cutComponent : Nat → Name → Name × Name
  | 0, p => ([], p)
  | _ + 1, [] => ([], [])
  | k + 1, c :: p =>
    if c = slash then ([], c :: p)
    else
      let r := cutComponent k p
      (c :: r.1, r.2)

/-- The component, whether a separator follows, and the rest behind it. -/
def nextComponent (p : Name) : Name × Bool × Name :=
  let r := cutComponent (nameMax - 1) p
  (r.1, r.2.head? == some slash, if r.2.head? = some slash then r.2.tail else r.2)

/-- The slashes in front of a component. -/
def skipSlashes (p : Name) : Name := p.dropWhile (· = slash)

end Aegis
