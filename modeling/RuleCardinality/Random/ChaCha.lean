import RuleCardinality.Random.Words

/-!
# The stream generator

The generator behind seeded searches: ChaCha with twelve rounds. Its key is spread from a 64-bit seed by
eight steps of a small congruential generator, the nonce is zero, and the blocks of the key stream are
numbered from zero. Two successive 32-bit words of the stream, the low one first, make one 64-bit word.
-/

namespace RuleCardinality.Random

abbrev Block := Vector UInt32 16

def rotateLeft (x : UInt32) (n : UInt32) : UInt32 := (x <<< n) ||| (x >>> (32 - n))

/-- The quarter round on four words of a block. -/
def quarter (a b c d : Fin 16) (x : Block) : Block :=
  let x := x.set a (x[a] + x[b])
  let x := x.set d (rotateLeft (x[d] ^^^ x[a]) 16)
  let x := x.set c (x[c] + x[d])
  let x := x.set b (rotateLeft (x[b] ^^^ x[c]) 12)
  let x := x.set a (x[a] + x[b])
  let x := x.set d (rotateLeft (x[d] ^^^ x[a]) 8)
  let x := x.set c (x[c] + x[d])
  x.set b (rotateLeft (x[b] ^^^ x[c]) 7)

/-- Two rounds: the columns, then the diagonals. -/
def doubleRound (x : Block) : Block :=
  let x := quarter 3 7 11 15 (quarter 2 6 10 14 (quarter 1 5 9 13 (quarter 0 4 8 12 x)))
  quarter 3 4 9 14 (quarter 2 7 8 13 (quarter 1 6 11 12 (quarter 0 5 10 15 x)))

def constants : Vector UInt32 4 := #v[0x61707865, 0x3320646e, 0x79622d32, 0x6b206574]

/-- One block of the key stream. -/
def block (key : Vector UInt32 8) (counter : UInt64) : Block :=
  let start : Block := constants ++ key ++ #v[counter.toUInt32, (counter >>> 32).toUInt32, 0, 0]
  let mixed := doubleRound (doubleRound (doubleRound (doubleRound (doubleRound (doubleRound start)))))
  Vector.zipWith (· + ·) mixed start

/-- Words joined in pairs, the low half first. -/
def pairs : List UInt32 → List UInt64
  | low :: high :: rest => (low.toUInt64 ||| (high.toUInt64 <<< 32)) :: pairs rest
  | _ => []

/-- A position in a key stream. -/
structure Stream where
  key : Vector UInt32 8
  counter : UInt64
  /-- The words of the current block that are still to come. -/
  pending : List UInt64

def Stream.next (s : Stream) : UInt64 × Stream :=
  match s.pending with
  | word :: rest => (word, { s with pending := rest })
  | [] =>
    match pairs (block s.key s.counter).toList with
    | word :: rest => (word, { s with counter := s.counter + 1, pending := rest })
    | [] => (0, s)

/-- One word of a key, from the state of the spreading generator. -/
def keyWord (state : UInt64) : UInt32 :=
  let folded := (((state >>> 18) ^^^ state) >>> 27).toUInt32
  let turn := (state >>> 59).toUInt32
  (folded >>> turn) ||| (folded <<< ((32 - turn) % 32))

/-- The states of the spreading generator after a seed. -/
def spread (seed : UInt64) : Nat → UInt64
  | 0 => seed
  | n + 1 => spread seed n * 6364136223846793005 + 11634580027462260723

/-- The stream of a seed (`seed_from_u64`, validator.rs:128). -/
def Stream.seeded (seed : UInt64) : Stream where
  key := Vector.ofFn fun i => keyWord (spread seed (i + 1))
  counter := 0
  pending := []

end RuleCardinality.Random
