import Foxing.LiveVersions
import Mathlib.Data.List.DropRight

/-!
# Numbers with a unit

Ages and sizes are given on the command line as a number and a unit. The unit is the last
byte of the text, which is cut before it, and the product is taken in 64 bits. It decides
which snapshots are deleted.
-/
namespace Foxing.Units
open LiveVersions (parseU64)

/-! ## Texts -/

/-- The characters with the property White_Space of Unicode. -/
def isWhitespace (c : Char) : Bool :=
  (9 ≤ c.toNat && c.toNat ≤ 13) || c.toNat = 0x20 || c.toNat = 0x85 || c.toNat = 0xA0 ||
    c.toNat = 0x1680 || (0x2000 ≤ c.toNat && c.toNat ≤ 0x200A) || c.toNat = 0x2028 ||
    c.toNat = 0x2029 || c.toNat = 0x202F || c.toNat = 0x205F || c.toNat = 0x3000

def trim (s : List Char) : List Char := (s.dropWhile isWhitespace).rdropWhile isWhitespace

/-- The length of a text in bytes. -/
def len (s : List Char) : ℕ := (s.map Char.utf8Size).sum

/-- A text is cut at a position in bytes, which has to lie between two characters. -/
def splitAt (mid : ℕ) : List Char → Option (List Char × List Char)
  | [] => if mid = 0 then some ([], []) else none
  | c :: s =>
    if mid = 0 then some ([], c :: s)
    else if c.utf8Size ≤ mid then
      (splitAt (mid - c.utf8Size) s).map fun t => (c :: t.1, t.2)
    else none

/-! ## The two parsers -/

/-- Why there is no number: an error with its message, or a panic. -/
inductive Stop where
  | error (message : String)
  | panic
  deriving DecidableEq, Repr

/-- What one of the parsers knows: its word for what it reads, the units, and how it lists
them. -/
structure UnitTable where
  noun : String
  factor : Char → Option U64
  listed : String

def UnitTable.factorOf (t : UnitTable) : List Char → Option U64
  | [c] => t.factor c
  | _ => none

def durationUnits : UnitTable where
  noun := "duration"
  factor c :=
    match c with
    | 's' => some 1
    | 'm' => some 60
    | 'h' => some 3600
    | 'd' => some 86400
    | 'w' => some 604800
    | _ => none
  listed := "s/m/h/d/w"

/-- The unit is put into upper case. As it is one byte, this is so for ASCII only. -/
def sizeUnits : UnitTable where
  noun := "size"
  factor c :=
    match c.toUpper with
    | 'K' => some 1024
    | 'M' => some (1024 * 1024)
    | 'G' => some (1024 * 1024 * 1024)
    | 'T' => some (1024 * 1024 * 1024 * 1024)
    | _ => none
  listed := "K/M/G/T"

def parse (t : UnitTable) (s : String) : Except Stop U64 :=
  let s := trim s.toList
  match splitAt (len s - 1) s with
  | none => .error .panic
  | some (numStr, unit) =>
    match parseU64 numStr with
    | none => .error (.error ("Invalid " ++ t.noun ++ ": " ++ String.ofList s))
    | some num =>
      match t.factorOf unit with
      | none => .error (.error ("Unknown " ++ t.noun ++ " unit '" ++ String.ofList unit ++
          "' (use " ++ t.listed ++ ")"))
      | some factor => .ok (num * factor)

/-- In seconds. -/
def parseDuration (s : String) : Except Stop U64 := parse durationUnits s

/-- In bytes. -/
def parseSize (s : String) : Except Stop U64 := parse sizeUnits s

/-! ## Exact results -/

/-- The number that a text of digits stands for, of any size and perhaps with a plus sign. -/
def decimal (cs : List Char) : Option ℕ :=
  parseDigits (match cs with | '+' :: ds => ds | ds => ds)

/-- The number that a text with a unit stands for. -/
def StandsFor (t : UnitTable) (s : String) (n : ℕ) : Prop :=
  ∃ numStr unit num factor, trim s.toList = numStr ++ [unit] ∧ decimal numStr = some num ∧
    t.factor unit = some factor ∧ n = num * factor.val

/-- The result is the number that the text stands for, or an error. -/
def Exact (t : UnitTable) (s : String) : Except Stop U64 → Prop
  | .ok n => StandsFor t s n.val
  | .error (.error _) => True
  | .error .panic => False

/-- The text does not end in a character of several bytes, and if its number fits in 64 bits,
so does the product. -/
def Representable (t : UnitTable) (s : String) : Prop :=
  ∀ numStr unit, trim s.toList = numStr ++ [unit] → unit.utf8Size = 1 ∧
    ∀ num factor, parseU64 numStr = some num → t.factor unit = some factor →
      num.val * factor.val < 2 ^ 64

/-! ## Where a text is cut -/

@[simp] theorem len_nil : len [] = 0 := rfl

@[simp] theorem len_cons (c : Char) (s : List Char) : len (c :: s) = c.utf8Size + len s := rfl

@[simp] theorem len_append (s t : List Char) : len (s ++ t) = len s + len t := by
  simp [len]

theorem splitAt_cons {c : Char} {mid : ℕ} (h : c.utf8Size ≤ mid) (s : List Char) :
    splitAt mid (c :: s) = (splitAt (mid - c.utf8Size) s).map fun t => (c :: t.1, t.2) := by
  have hpos := c.utf8Size_pos
  rw [splitAt, if_neg (by omega), if_pos h]

theorem splitAt_zero (s : List Char) : splitAt 0 s = some ([], s) := by
  cases s <;> rfl

/-- A text can be cut between two parts. -/
theorem splitAt_len_add (s t : List Char) (k : ℕ) :
    splitAt (len s + k) (s ++ t) = (splitAt k t).map fun r => (s ++ r.1, r.2) := by
  induction s with
  | nil => simp
  | cons c s ih =>
    have hmid : len (c :: s) + k - c.utf8Size = len s + k := by rw [len_cons]; omega
    rw [List.cons_append, splitAt_cons (by rw [len_cons]; omega), hmid, ih, Option.map_map]
    rfl

/-- The cut before the last byte is the one before the last character, if this has one byte. -/
theorem splitAt_last (s : List Char) (c : Char) :
    splitAt (len (s ++ [c]) - 1) (s ++ [c]) =
      if c.utf8Size = 1 then some (s, [c]) else none := by
  have hpos := c.utf8Size_pos
  have hmid : len (s ++ [c]) - 1 = len s + (c.utf8Size - 1) := by
    rw [len_append, len_cons, len_nil]
    omega
  rw [hmid, splitAt_len_add]
  split_ifs with hone
  · rw [hone, Nat.sub_self, splitAt_zero]
    simp
  · rw [splitAt, if_neg (by omega), if_neg (by omega)]
    rfl

/-! ## What is parsed -/

theorem decimal_of_parseU64 {cs : List Char} {num : U64} (h : parseU64 cs = some num) :
    decimal cs = some num.val := by
  unfold parseU64 at h
  obtain ⟨n, hn, hfits⟩ := Option.bind_eq_some_iff.mp h
  split_ifs at hfits with hlt
  cases hfits
  exact hn

section Parse
variable {t : UnitTable} {s : String}

theorem parse_blank (h : trim s.toList = []) :
    parse t s = .error (.error ("Invalid " ++ t.noun ++ ": " ++ String.ofList [])) := by
  rw [parse, h]
  rfl

theorem parse_wide {numStr : List Char} {unit : Char} (h : trim s.toList = numStr ++ [unit])
    (hwide : unit.utf8Size ≠ 1) : parse t s = .error .panic := by
  rw [parse, h, splitAt_last, if_neg hwide]

theorem parse_product {numStr : List Char} {unit : Char} {num factor : U64}
    (h : trim s.toList = numStr ++ [unit]) (hone : unit.utf8Size = 1)
    (hnum : parseU64 numStr = some num) (hfactor : t.factor unit = some factor) :
    parse t s = .ok (num * factor) := by
  have hfactorOf : t.factorOf [unit] = some factor := hfactor
  rw [parse, h, splitAt_last, if_pos hone]
  dsimp only
  rw [hnum]
  dsimp only
  rw [hfactorOf]

/-- Without a product there is an error. -/
theorem parse_error {numStr : List Char} {unit : Char} (h : trim s.toList = numStr ++ [unit])
    (hone : unit.utf8Size = 1) (hnone : parseU64 numStr = none ∨ t.factor unit = none) :
    ∃ message, parse t s = .error (.error message) := by
  rw [parse, h, splitAt_last, if_pos hone]
  dsimp only
  cases hnum : parseU64 numStr with
  | none => exact ⟨_, rfl⟩
  | some num =>
    have hfactorOf : t.factorOf [unit] = none := by
      rcases hnone with hnone | hnone
      · rw [hnum] at hnone
        cases hnone
      · exact hnone
    dsimp only
    rw [hfactorOf]
    exact ⟨_, rfl⟩

/-- A product in 64 bits is what the text stands for if it fits. -/
theorem standsFor_mul_iff {numStr : List Char} {unit : Char} {num factor : U64}
    (h : trim s.toList = numStr ++ [unit]) (hnum : parseU64 numStr = some num)
    (hfactor : t.factor unit = some factor) :
    StandsFor t s (num * factor).val ↔ num.val * factor.val < 2 ^ 64 := by
  constructor
  · rintro ⟨numStr', unit', num', factor', htrim, hnum', hfactor', hval⟩
    obtain ⟨rfl, hunit⟩ := List.append_inj' (h.symm.trans htrim) rfl
    cases hunit
    rw [decimal_of_parseU64 hnum] at hnum'
    cases hnum'
    rw [hfactor] at hfactor'
    cases hfactor'
    exact hval ▸ (num * factor).isLt
  · intro hlt
    exact ⟨numStr, unit, num.val, factor, h, decimal_of_parseU64 hnum, hfactor,
      (Fin.val_mul num factor).trans (Nat.mod_eq_of_lt hlt)⟩

theorem exact_parse_iff (t : UnitTable) (s : String) :
    Exact t s (parse t s) ↔ Representable t s := by
  rcases List.eq_nil_or_concat (trim s.toList) with hblank | ⟨numStr, unit, h⟩
  · rw [parse_blank hblank]
    refine iff_of_true trivial fun numStr unit h => ?_
    rw [hblank] at h
    exact absurd h.symm (List.append_ne_nil_of_right_ne_nil _ (List.cons_ne_nil _ _))
  rw [List.concat_eq_append] at h
  -- There is one way to take the unit off the text.
  have hsplit : Representable t s ↔ unit.utf8Size = 1 ∧ ∀ num factor,
      parseU64 numStr = some num → t.factor unit = some factor →
        num.val * factor.val < 2 ^ 64 := by
    constructor
    · intro hrep
      exact hrep numStr unit h
    · intro hrep numStr' unit' h'
      obtain ⟨rfl, hunit⟩ := List.append_inj' (h.symm.trans h') rfl
      cases hunit
      exact hrep
  rw [hsplit]
  by_cases hone : unit.utf8Size = 1
  · cases hnum : parseU64 numStr with
    | none =>
      obtain ⟨message, hparse⟩ := parse_error (t := t) h hone (.inl hnum)
      rw [hparse]
      exact iff_of_true trivial ⟨hone, fun num factor hsome => by cases hsome⟩
    | some num =>
      cases hfactor : t.factor unit with
      | none =>
        obtain ⟨message, hparse⟩ := parse_error h hone (.inr hfactor)
        rw [hparse]
        exact iff_of_true trivial ⟨hone, fun num factor _ hsome => by cases hsome⟩
      | some factor =>
        rw [parse_product h hone hnum hfactor]
        refine (standsFor_mul_iff h hnum hfactor).trans ⟨fun hlt => ⟨hone, ?_⟩, fun hrep => ?_⟩
        · rintro num' factor' ⟨⟩ ⟨⟩
          exact hlt
        · exact hrep.2 num factor rfl rfl
  · rw [parse_wide h hone]
    exact iff_of_false id fun hrep => hone hrep.1

end Parse

/-- Ages and sizes are exact as long as they are representable, and only then. -/
theorem arguments_exact_iff (s : String) :
    (Exact durationUnits s (parseDuration s) ↔ Representable durationUnits s) ∧
      (Exact sizeUnits s (parseSize s) ↔ Representable sizeUnits s) :=
  ⟨exact_parse_iff durationUnits s, exact_parse_iff sizeUnits s⟩

/-- A character of two bytes cannot be cut, and a product of 2 ^ 64 bytes is none. -/
theorem arguments_inexact :
    ¬ Exact durationUnits "5é" (parseDuration "5é") ∧
      ¬ Exact sizeUnits "16777216T" (parseSize "16777216T") := by
  constructor
  · have h : parseDuration "5é" = .error .panic := by decide +kernel
    rw [h]
    exact id
  · have h : parseSize "16777216T" = .ok 0 := by decide +kernel
    rw [h]
    rintro ⟨numStr, unit, num, factor, htrim, hnum, hfactor, hval⟩
    have htrim' : trim "16777216T".toList = "16777216".toList ++ ['T'] := by decide +kernel
    obtain ⟨rfl, hunit⟩ := List.append_inj' (htrim'.symm.trans htrim) rfl
    cases hunit
    have hdecimal : decimal "16777216".toList = some 16777216 := by decide +kernel
    rw [hdecimal] at hnum
    cases hnum
    cases hfactor
    cases hval

end Foxing.Units
