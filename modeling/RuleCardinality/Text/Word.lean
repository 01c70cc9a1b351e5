import RuleCardinality.Saturating

/-!
# Words read from text

A word is a whole number from zero to `cap`, written in decimal digits after an optional plus sign. The
first character that cannot go on decides what is wrong.
-/

namespace RuleCardinality.Text

inductive WordFault where
  | empty
  /-- There is a character that is no digit, or a sign alone. -/
  | badDigit
  | tooLarge
deriving DecidableEq, Repr

def WordFault.message : WordFault → String
  | .empty => "cannot parse integer from empty string"
  | .badDigit => "invalid digit found in string"
  | .tooLarge => "number too large to fit in target type"

/-- Reads digits after the ones that were read. -/
def readDigits : Nat → List Char → Except WordFault Nat
  | n, [] => .ok n
  | n, c :: cs =>
    if '0' ≤ c && c ≤ '9' then
      let n := n * 10 + (c.toNat - 48)
      if n ≤ cap then readDigits n cs else .error .tooLarge
    else .error .badDigit

/-- Reads a word, as the seed variable holds it (config.rs:132-134). -/
def readWord : List Char → Except WordFault Nat
  | [] => .error .empty
  | ['+'] => .error .badDigit
  | '+' :: cs => readDigits 0 cs
  | cs => readDigits 0 cs

theorem readDigits_le {n m : Nat} {cs : List Char} (hn : n ≤ cap) (h : readDigits n cs = .ok m) :
    m ≤ cap := by
  induction cs generalizing n with
  | nil => simp only [readDigits, Except.ok.injEq] at h; omega
  | cons c cs ih =>
    simp only [readDigits] at h
    split at h
    · split at h
      · exact ih ‹_› h
      · simp at h
    · simp at h

end RuleCardinality.Text
