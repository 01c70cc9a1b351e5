/-!
# Digest of bytes

The keyed hash SipHash-1-3 with both key words zero: one round for each eight bytes and three at the
end. Objects without a configured seed are seeded by it.
-/

namespace RuleCardinality.Random

/-- The four words of the hash's state. -/
structure Sip where
  v0 : UInt64
  v1 : UInt64
  v2 : UInt64
  v3 : UInt64

namespace Sip

def turn (x n : UInt64) : UInt64 := (x <<< n) ||| (x >>> (64 - n))

def round (s : Sip) : Sip :=
  let v0 := s.v0 + s.v1
  let v1 := turn s.v1 13 ^^^ v0
  let v0 := turn v0 32
  let v2 := s.v2 + s.v3
  let v3 := turn s.v3 16 ^^^ v2
  let v0 := v0 + v3
  let v3 := turn v3 21 ^^^ v0
  let v2 := v2 + v1
  let v1 := turn v1 17 ^^^ v2
  ⟨v0, v1, turn v2 32, v3⟩

def absorb (s : Sip) (word : UInt64) : Sip :=
  let s := round { s with v3 := s.v3 ^^^ word }
  { s with v0 := s.v0 ^^^ word }

def start : Sip := ⟨0x736f6d6570736575, 0x646f72616e646f6d, 0x6c7967656e657261, 0x7465646279746573⟩

/-- The number that bytes stand for, the lowest first. -/
def word (bytes : List UInt8) : UInt64 := bytes.foldr (fun b n => n <<< 8 ||| b.toUInt64) 0

/-- Takes in all full words; what is left over goes into the last one with the length. -/
def absorbAll (length : UInt64) : List UInt8 → Sip → Sip
  | a :: b :: c :: d :: e :: f :: g :: h :: rest, s =>
    absorbAll length rest (s.absorb (word [a, b, c, d, e, f, g, h]))
  | rest, s => s.absorb (word rest ||| (length <<< 56))

/-- The hash of some bytes (`DefaultHasher`, validator.rs:137). -/
def hash (bytes : List UInt8) : UInt64 :=
  let s := absorbAll (UInt64.ofNat bytes.length) bytes start
  let s := round (round (round { s with v2 := s.v2 ^^^ 0xff }))
  s.v0 ^^^ s.v1 ^^^ s.v2 ^^^ s.v3

end Sip

end RuleCardinality.Random
