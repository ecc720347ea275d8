import Mathlib.Logic.Function.Basic
import Mathlib.Data.List.Range

/-!
# Words on a stack that grows down

A stack is a memory and the address of its top; a word has eight bytes, and the memory maps the
address of a word to its value. `pushAll` pushes a list of words, and `read` reads words upwards from
an address, which is the order in which they are popped.
-/

namespace WordStack

open Function

variable {α : Type}

/-- The memory after the words have been pushed below the address `sp`. -/
def pushAll (mem : Nat → α) (sp : Nat) : List α → Nat → α
  | [] => mem
  | w :: ws => pushAll (update mem (sp - 8) w) (sp - 8) ws

/-- The `n` words from the address `a` on. -/
def read (mem : Nat → α) (a n : Nat) : List α := (List.range n).map fun i => mem (a + 8 * i)

theorem read_succ (mem : Nat → α) (a n : Nat) :
    read mem a (n + 1) = read mem a n ++ [mem (a + 8 * n)] := by
  simp [read, List.range_succ]

/-- Words outside the pushed ones are as before. -/
theorem pushAll_of_outside (ws : List α) {mem : Nat → α} {sp a : Nat} (hsp : 8 * ws.length ≤ sp)
    (h : a + 8 ≤ sp - 8 * ws.length ∨ sp ≤ a) : pushAll mem sp ws a = mem a := by
  induction ws generalizing mem sp with
  | nil => rfl
  | cons w ws ih =>
    rw [List.length_cons] at hsp h
    have hne : a ≠ sp - 8 := by omega
    rw [pushAll, ih (by omega) (by omega), update_of_ne hne]

/-- What has been pushed is popped in the opposite order. -/
theorem read_pushAll (ws : List α) (mem : Nat → α) (sp : Nat) (hsp : 8 * ws.length ≤ sp) :
    read (pushAll mem sp ws) (sp - 8 * ws.length) ws.length = ws.reverse := by
  induction ws generalizing mem sp with
  | nil => rfl
  | cons w ws ih =>
    rw [List.length_cons] at hsp ⊢
    have he : sp - 8 * (ws.length + 1) = sp - 8 - 8 * ws.length := by omega
    -- the first word pushed is the last one read
    have hw : pushAll mem sp (w :: ws) (sp - 8 - 8 * ws.length + 8 * ws.length) = w := by
      rw [pushAll, show sp - 8 - 8 * ws.length + 8 * ws.length = sp - 8 by omega,
        pushAll_of_outside ws (by omega) (by omega), update_self]
    rw [read_succ, he, hw, pushAll, ih _ _ (by omega), List.reverse_cons]

/-- A write outside the words leaves them. -/
theorem read_update {mem : Nat → α} {a n b : Nat} (h : b + 8 ≤ a ∨ a + 8 * n ≤ b) (w : α) :
    read (update mem b w) a n = read mem a n := by
  refine List.map_congr_left fun i hi => ?_
  have hi := List.mem_range.1 hi
  exact update_of_ne (by omega) ..

end WordStack
