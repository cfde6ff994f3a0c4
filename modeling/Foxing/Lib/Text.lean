import Foxing.Lib.Bytes

/-!
# Texts in UTF-8

A text is a byte string that is valid UTF-8. The whitespace of a text is that of
Unicode.
-/

namespace Text

def isContinuation (b : Fin 256) : Bool := 0x80 ≤ b.val && b.val ≤ 0xBF

/-- The first two bytes of a character of three. -/
def isThree (a b : Fin 256) : Bool :=
  (a.val = 0xE0 && 0xA0 ≤ b.val && b.val ≤ 0xBF) ||
  (0xE1 ≤ a.val && a.val ≤ 0xEC && isContinuation b) ||
  (a.val = 0xED && 0x80 ≤ b.val && b.val ≤ 0x9F) ||
  (0xEE ≤ a.val && a.val ≤ 0xEF && isContinuation b)

/-- The first two bytes of a character of four. -/
def isFour (a b : Fin 256) : Bool :=
  (a.val = 0xF0 && 0x90 ≤ b.val && b.val ≤ 0xBF) ||
  (0xF1 ≤ a.val && a.val ≤ 0xF3 && isContinuation b) ||
  (a.val = 0xF4 && 0x80 ≤ b.val && b.val ≤ 0x8F)

def isUtf8 : Bytes → Bool
  | [] => true
  | a :: as =>
    if a.val < 0x80 then isUtf8 as
    else
      match as with
      | [] => false
      | b :: bs =>
        if 0xC2 ≤ a.val ∧ a.val ≤ 0xDF ∧ isContinuation b then isUtf8 bs
        else
          match bs with
          | [] => false
          | c :: cs =>
            if isThree a b ∧ isContinuation c then isUtf8 cs
            else
              match cs with
              | [] => false
              | d :: ds => isFour a b && isContinuation c && isContinuation d && isUtf8 ds

/-- The replacement character. -/
def replacement : Bytes := [0xEF, 0xBF, 0xBD]

/-- The replacement character stands for every longest part that could begin a character and
does not. -/
def lossy : Bytes → Bytes
  | [] => []
  | a :: as =>
    let afterOne := lossy as
    if a.val < 0x80 then a :: afterOne
    else
      match as with
      | [] => replacement
      | b :: bs =>
        let afterTwo := lossy bs
        if 0xC2 ≤ a.val ∧ a.val ≤ 0xDF ∧ isContinuation b then a :: b :: afterTwo
        else if isThree a b = false ∧ isFour a b = false then replacement ++ afterOne
        else
          match bs with
          | [] => replacement
          | c :: cs =>
            let afterThree := lossy cs
            if isThree a b ∧ isContinuation c then a :: b :: c :: afterThree
            else if isContinuation c = false then replacement ++ afterTwo
            else
              match cs with
              | [] => replacement
              | d :: ds =>
                if isContinuation d then a :: b :: c :: d :: lossy ds
                else replacement ++ afterThree

theorem lead_of_isThree {a b : Fin 256} (h : isThree a b = true) :
    0xE0 ≤ a.val ∧ a.val ≤ 0xEF := by
  simp only [isThree, Bool.or_eq_true, Bool.and_eq_true, decide_eq_true_eq] at h
  omega

theorem lead_of_isFour {a b : Fin 256} (h : isFour a b = true) : 0xF0 ≤ a.val := by
  simp only [isFour, Bool.or_eq_true, Bool.and_eq_true, decide_eq_true_eq] at h
  omega

theorem isUtf8_one {a : Fin 256} (h : a.val < 0x80) (as : Bytes) :
    isUtf8 (a :: as) = isUtf8 as := by
  rw [isUtf8.eq_def]
  exact if_pos h

theorem isUtf8_two {a b : Fin 256} (h : 0xC2 ≤ a.val ∧ a.val ≤ 0xDF ∧ isContinuation b = true)
    (bs : Bytes) : isUtf8 (a :: b :: bs) = isUtf8 bs := by
  rw [isUtf8.eq_def]
  dsimp only
  rw [if_neg (by omega), if_pos h]

theorem isUtf8_three {a b c : Fin 256} (h : isThree a b = true ∧ isContinuation c = true)
    (cs : Bytes) : isUtf8 (a :: b :: c :: cs) = isUtf8 cs := by
  have hlead := lead_of_isThree h.1
  rw [isUtf8.eq_def]
  dsimp only
  rw [if_neg (by omega), if_neg (by omega), if_pos h]

theorem isUtf8_four {a b c d : Fin 256} (h : isFour a b = true ∧ isContinuation c = true ∧
    isContinuation d = true) (ds : Bytes) : isUtf8 (a :: b :: c :: d :: ds) = isUtf8 ds := by
  have hlead := lead_of_isFour h.1
  have hthree : ¬ (isThree a b = true ∧ isContinuation c = true) := by
    rintro ⟨hthree, -⟩
    have := lead_of_isThree hthree
    omega
  rw [isUtf8.eq_def]
  dsimp only
  rw [if_neg (by omega), if_neg (by omega), if_neg hthree, h.1, h.2.1, h.2.2]
  rfl

theorem isUtf8_replacement (b : Bytes) : isUtf8 (replacement ++ b) = isUtf8 b :=
  isUtf8_three (by decide) b

theorem isUtf8_lossy (b : Bytes) : isUtf8 (lossy b) = true := by
  fun_induction lossy b with
  | case1 => rfl
  | case2 a as afterOne ha ih =>
    rw [isUtf8_one ha]
    exact ih
  | case3 => rfl
  | case4 a ha b bs afterTwo hb _ ih =>
    rw [isUtf8_two hb]
    exact ih
  | case5 a ha b bs hb hbad afterOne ih _ =>
    rw [isUtf8_replacement]
    exact ih
  | case6 => rfl
  | case7 a ha b hb hgood c cs afterThree hc _ _ ih =>
    rw [isUtf8_three hc]
    exact ih
  | case8 a ha b hb hgood c cs hc hbad afterTwo _ ih _ =>
    rw [isUtf8_replacement]
    exact ih
  | case9 => rfl
  | case10 a ha b hb hgood c hc hcont d ds hd _ _ _ ih =>
    rw [Bool.not_eq_false] at hcont
    have hfour : isFour a b = true := by
      have hthree : isThree a b = false :=
        Bool.eq_false_iff.mpr fun hthree => hc ⟨hthree, hcont⟩
      exact Bool.not_eq_false _ ▸ fun hfour => hgood ⟨hthree, hfour⟩
    rw [isUtf8_four ⟨hfour, hcont, hd⟩]
    exact ih
  | case11 a ha b hb hgood c hc hcont d ds hd afterThree _ _ ih =>
    rw [isUtf8_replacement]
    exact ih

theorem lossy_eq_self {b : Bytes} (h : isUtf8 b = true) : lossy b = b := by
  fun_induction isUtf8 b with
  | case1 => rfl
  | case2 a as ha ih =>
    rw [lossy.eq_def]
    dsimp only
    rw [if_pos ha, ih h]
  | case3 => cases h
  | case4 a ha b bs hb ih =>
    rw [lossy.eq_def]
    dsimp only
    rw [if_neg ha, if_pos hb, ih h]
  | case5 => cases h
  | case6 a ha b hb c cs hc ih =>
    rw [lossy.eq_def]
    dsimp only
    rw [if_neg ha, if_neg hb, if_neg (by simp [hc.1]), if_pos hc, ih h]
  | case7 => cases h
  | case8 a ha b hb c hc d ds ih =>
    simp only [Bool.and_eq_true] at h
    obtain ⟨⟨⟨hfour, hcont⟩, hd⟩, hds⟩ := h
    rw [lossy.eq_def]
    dsimp only
    rw [if_neg ha, if_neg hb, if_neg (by simp [hfour]), if_neg hc, if_neg (by simp [hcont]),
      if_pos hd, ih hds]

/-- A text has no other characters than whitespace. -/
def isBlank : Bytes → Bool
  | [] => true
  | a :: as =>
    if (9 ≤ a.val ∧ a.val ≤ 13) ∨ a.val = 32 then isBlank as
    else
      match as with
      | [] => false
      | b :: bs =>
        if a.val = 0xC2 ∧ (b.val = 0x85 ∨ b.val = 0xA0) then isBlank bs
        else
          match bs with
          | [] => false
          | c :: cs =>
            ((a.val = 0xE1 && b.val = 0x9A && c.val = 0x80) ||
              (a.val = 0xE2 && b.val = 0x80 &&
                ((0x80 ≤ c.val && c.val ≤ 0x8A) || c.val = 0xA8 || c.val = 0xA9 ||
                  c.val = 0xAF)) ||
              (a.val = 0xE2 && b.val = 0x81 && c.val = 0x9F) ||
              (a.val = 0xE3 && b.val = 0x80 && c.val = 0x80)) && isBlank cs

/-- A text that begins with an ASCII character other than whitespace is not blank. -/
theorem isBlank_cons {a : Fin 256} (h : 32 < a.val ∧ a.val < 0x80) (as : Bytes) :
    isBlank (a :: as) = false := by
  have hspace : ¬ ((9 ≤ a.val ∧ a.val ≤ 13) ∨ a.val = 32) := by omega
  have hne : ∀ n, 0x80 ≤ n → decide (a.val = n) = false := fun n hn => by
    rw [decide_eq_false_iff_not]
    omega
  match as with
  | [] => rw [isBlank, if_neg hspace]
  | [b] => rw [isBlank, if_neg hspace, if_neg (by omega)]
  | b :: c :: cs => 
    rw [isBlank, if_neg hspace, if_neg (by omega)]
    simp [hne]

end Text

structure Text where
  bytes : Bytes
  valid : Text.isUtf8 bytes = true
  deriving DecidableEq

namespace Text

def fromUtf8 (b : Bytes) : Option Text := if h : isUtf8 b = true then some ⟨b, h⟩ else none

theorem fromUtf8_bytes (t : Text) : fromUtf8 t.bytes = some t := dif_pos t.valid

theorem bytes_of_fromUtf8 {b : Bytes} {t : Text} (h : fromUtf8 b = some t) : t.bytes = b := by
  unfold fromUtf8 at h
  split_ifs at h with hb
  cases h
  rfl

end Text
