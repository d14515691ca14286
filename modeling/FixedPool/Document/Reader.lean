/-!
Readers over a text: each takes characters off its front or refuses it. A refused reader leaves the
text as it was, so that another one can be tried.
-/

namespace FixedPool.Document

/-- The characters that are still to be read, and how many they are. -/
structure Source where
  chars : List Char
  left : Nat
  left_eq : left = chars.length := by rfl

def Source.of (s : String) : Source := { chars := s.toList, left := s.toList.length }

/-- Takes a value off the front of a text. -/
abbrev Reader := StateT Source Option

namespace Reader

variable {α : Type}

/-- The next character, which stays. -/
def peek : Reader (Option Char) := fun s => some (s.chars.head?, s)

/-- A character of a class. -/
def satisfy (p : Char → Bool) : Reader Char
  | ⟨c :: cs, left, h⟩ => if p c then some (c, ⟨cs, left - 1, by simp [h]⟩) else none
  | ⟨[], _, _⟩ => none

/-- This character. -/
def char (c : Char) : Reader Unit := do
  let _ ← satisfy (· == c)

/-- These characters in turn. -/
def text (s : String) : Reader Unit := s.toList.forM char

/-- As many characters of a class as there are. -/
def takeWhile (p : Char → Bool) : Reader (List Char) := fun s =>
  let taken := s.chars.takeWhile p
  some (taken, ⟨s.chars.drop taken.length, s.left - taken.length, by simp [s.left_eq]⟩)

/-- The end of the text. -/
def done : Reader Unit := do
  if (← peek).isSome then
    failure

/-- Applies a reader for as long as it takes something. -/
def many (r : Reader α) : Reader (List α) := fun s =>
  match r s with
  | none => some ([], s)
  | some (a, rest) =>
    if rest.left < s.left then
      match many r rest with
      | some (as, rest) => some (a :: as, rest)
      | none => none
    else some ([a], rest)
termination_by s => s.left

/-- Items with a separator between each two of them. -/
def separated (item : Reader α) (separator : Reader Unit) : Reader (List α) := do
  match ← optional item with
  | none => return []
  | some first => return first :: (← many (do separator; item))

end Reader

end FixedPool.Document
