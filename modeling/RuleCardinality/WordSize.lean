/-!
# The range of a word

Numbers are stored in words of 64 bits, with or without a sign.
-/

namespace RuleCardinality

/-- The first number that a word without a sign does not hold, `2 ^ 64`. -/
def wordEnd : Nat := 0x10000000000000000

/-- The first number that a word with a sign does not hold, `2 ^ 63`; its opposite is the least one
that such a word holds. -/
def signedEnd : Nat := 0x8000000000000000

theorem lt_wordEnd (word : UInt64) : word.toNat < wordEnd := word.toNat_lt

end RuleCardinality
