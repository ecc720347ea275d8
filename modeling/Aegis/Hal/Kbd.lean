import Mathlib.Logic.Function.Basic

/-!
# Keyboard typeahead (`hal/kbd.c`)

`kbd_isr` can come between any two statements of `kbd_getchar`: `kbdStep` is one interrupt, or one
statement of the one thread that reads. `Typeahead` is what the ring is for, a queue of at most 31
characters.
-/

namespace Aegis

open Function

def kbdBuf : Nat := 32

/-- `map` and `map_shift`, which are 0 from the end of these texts on. -/
def keyMap (shift : Bool) : Array UInt8 :=
  (if shift then
    "\x00\x1b!@#$%^&*()_+\x08\tQWERTYUIOP\x7b\x7d\n\x00ASDFGHJKL:\"~\x00|ZXCVBNM<>?\x00*\x00 "
  else
    "\x00\x1b1234567890-=\x08\tqwertyuiop[]\n\x00asdfghjkl;'`\x00\\zxcvbnm,./\x00*\x00 ").toUTF8.data

/-- `g_shift` after a scan code, and the character that it stands for, or 0. -/
def scan (shift : Bool) (sc : UInt8) : Bool × UInt8 :=
  if sc = 0x2A ∨ sc = 0x36 then (true, 0)
  else if sc = 0xAA ∨ sc = 0xB6 then (false, 0)
  else if sc &&& 0x80 ≠ 0 then (shift, 0)
  else (shift, (keyMap shift).getD sc.toNat 0)

/-- How far a call of `kbd_getchar` has come. -/
inductive Reader
  | outside
  | nonempty
  | loaded

/-- The ring of `kbd.c`, and its reader. -/
structure Kbd where
  cell : Nat → UInt8
  r : Nat
  w : Nat
  shift : Bool
  reader : Reader
  /-- The local `c` of `kbd_getchar`. -/
  c : UInt8

def Kbd.init : Kbd := ⟨fun _ => 0, 0, 0, false, .outside, 0⟩

/-- `kbd_isr`. -/
def Kbd.isr (k : Kbd) (sc : UInt8) : Kbd :=
  let (shift, c) := scan k.shift sc
  let n := (k.w + 1) % kbdBuf
  if c ≠ 0 ∧ n ≠ k.r then { k with shift, cell := update k.cell k.w c, w := n }
  else { k with shift }

/-- The next statement of `kbd_getchar`, with what the call returns if it returns there. -/
def Kbd.getchar (k : Kbd) : Option Int × Kbd :=
  match k.reader with
  | .outside => if k.r = k.w then (some (-1), k) else (none, { k with reader := .nonempty })
  | .nonempty => (none, { k with reader := .loaded, c := k.cell k.r })
  | .loaded => (some k.c.toNat, { k with reader := .outside, r := (k.r + 1) % kbdBuf })

/-- The keys that nobody has read. -/
structure Typeahead where
  queue : List UInt8
  shift : Bool
  reader : Reader

def Typeahead.init : Typeahead := ⟨[], false, .outside⟩

/-- A character that finds 31 others waiting is dropped. -/
def Typeahead.isr (t : Typeahead) (sc : UInt8) : Typeahead :=
  let (shift, c) := scan t.shift sc
  if c ≠ 0 ∧ t.queue.length < 31 then { t with shift, queue := t.queue ++ [c] }
  else { t with shift }

/-- A call that finds a character returns the first one. -/
def Typeahead.getchar (t : Typeahead) : Option Int × Typeahead :=
  match t.reader with
  | .outside => if t.queue = [] then (some (-1), t) else (none, { t with reader := .nonempty })
  | .nonempty => (none, { t with reader := .loaded })
  | .loaded => (t.queue.head?.map (·.toNat), { t with reader := .outside, queue := t.queue.tail })

/-- An interrupt with a scan code, or a statement of the reader. -/
def kbdStep (k : Kbd) : Option UInt8 → Option (Option Int × Kbd)
  | some sc => some (none, k.isr sc)
  | none => some k.getchar

/-- A scancode, or a turn of the reader. -/
def typeaheadStep (t : Typeahead) : Option UInt8 → Option (Option Int × Typeahead)
  | some sc => some (none, t.isr sc)
  | none => some t.getchar

end Aegis
