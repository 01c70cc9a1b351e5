import RuleCardinality.Chooser
import RuleCardinality.WordSize

/-!
# Choices from random words

A generator of 64-bit words becomes a chooser by multiplication: the high half of the product of a
word and the bound is below the bound, and every number below it is hit by equally many words once the
words whose low half lies in the last, incomplete zone are passed over.
-/

namespace RuleCardinality.Random

variable {σ : Type}

/-- The number of words that are drawn for one choice before the last one is taken as it is. A word
is passed over with a chance of less than one half. -/
def patience : Nat := 65536

/-- The greatest low half that is accepted for a bound: the greatest multiple of the bound by a power
of two that fits into a word, less one. -/
def zone (n : Nat) : Nat := (n <<< (63 - n.log2) - 1) % wordEnd

/-- The high half of the product of a word and a bound. -/
def scaled {n : Nat} (h : 0 < n) (word : UInt64) : Fin n :=
  ⟨word.toNat * n / wordEnd,
    (Nat.div_lt_iff_lt_mul (by decide)).2
      (by rw [Nat.mul_comm n]; exact Nat.mul_lt_mul_of_pos_right (lt_wordEnd word) h)⟩

/-- Draws words until one is accepted. -/
def below (next : σ → UInt64 × σ) {n : Nat} (h : 0 < n) : Nat → σ → Fin n × σ
  | 0, s =>
    let (word, s) := next s
    (scaled h word, s)
  | patience + 1, s =>
    let (word, s) := next s
    if word.toNat * n % wordEnd ≤ zone n then (scaled h word, s)
    else below next h patience s

end RuleCardinality.Random

namespace RuleCardinality

/-- The chooser that draws from a generator of words. -/
def Chooser.ofWords {σ : Type} (next : σ → UInt64 × σ) : Chooser σ where
  pick _ h s := Random.below next h Random.patience s

end RuleCardinality
