import Mathlib.Algebra.BigOperators.Group.List.Basic
import Mathlib.Algebra.GroupWithZero.Nat

/-!
# Compact JSON text

The text of numbers, booleans, strings, arrays and objects, without white space, as a list of
characters. Strings escape what JSON requires and nothing else; characters outside ASCII stand for
themselves. The lengths of arrays and objects are sums over their members.
-/

namespace Json

open List

def number (n : ℕ) : List Char := Nat.toDigits 10 n

def bool (b : Bool) : List Char := if b then "true".toList else "false".toList

/-- A character inside a string. -/
def escape (c : Char) : List Char :=
  if c = '"' then ['\\', '"']
  else if c = '\\' then ['\\', '\\']
  else if c.toNat = 8 then ['\\', 'b']
  else if c.toNat = 9 then ['\\', 't']
  else if c.toNat = 10 then ['\\', 'n']
  else if c.toNat = 12 then ['\\', 'f']
  else if c.toNat = 13 then ['\\', 'r']
  else if c.toNat < 32 then
    ['\\', 'u', '0', '0', Nat.digitChar (c.toNat / 16), Nat.digitChar (c.toNat % 16)]
  else [c]

def string (s : String) : List Char := '"' :: (s.toList.flatMap escape ++ ['"'])

def array (items : List (List Char)) : List Char := '[' :: ([','].intercalate items ++ [']'])

def member (field : String × List Char) : List Char := string field.1 ++ ':' :: field.2

def object (fields : List (String × List Char)) : List Char :=
  '\x7b' :: ([','].intercalate (fields.map member) ++ ['\x7d'])

theorem length_intercalate (c : Char) (items : List (List Char)) :
    ([c].intercalate items).length = (items.map List.length).sum + (items.length - 1) := by
  induction items with
  | nil => rfl
  | cons item items ih =>
    rcases items with _ | ⟨next, rest⟩
    · simp [List.intercalate]
    · rw [intercalate_cons_cons, length_append, length_append, ih]
      simp only [map_cons, sum_cons, length_cons, length_nil]
      omega

theorem length_array (items : List (List Char)) :
    (array items).length = (items.map List.length).sum + (items.length - 1) + 2 := by
  rw [array, length_cons, length_append, length_intercalate, length_singleton]

theorem length_object (fields : List (String × List Char)) : (object fields).length =
      (fields.map fun p ↦ (string p.1).length + p.2.length + 1).sum + (fields.length - 1) + 2 := by
  have hmember : List.length ∘ member = fun p ↦ (string p.1).length + p.2.length + 1 := by
    funext p
    simp [member, add_assoc]
  rw [object, length_cons, length_append, length_intercalate, length_singleton,
    map_map, hmember, length_map]

end Json
