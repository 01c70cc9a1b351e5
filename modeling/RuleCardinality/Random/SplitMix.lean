import RuleCardinality.Random.Words

/-!
# Recorded words and SplitMix64

A source that first plays back given words and then goes on with the generator SplitMix64. It counts
the words that were drawn.
-/

namespace RuleCardinality.Random

/-- A source of given words, then of generated ones. -/
structure Playback where
  given : List UInt64
  state : UInt64
  drawn : Nat := 0

/-- One step of SplitMix64. -/
def splitMix (state : UInt64) : UInt64 × UInt64 :=
  let s := state + 0x9E3779B97F4A7C15
  let z := (s ^^^ (s >>> 30)) * 0xBF58476D1CE4E5B9
  let z := (z ^^^ (z >>> 27)) * 0x94D049BB133111EB
  (z ^^^ (z >>> 31), s)

def Playback.next (p : Playback) : UInt64 × Playback :=
  match p.given with
  | word :: rest => (word, { p with given := rest, drawn := p.drawn + 1 })
  | [] =>
    let (word, state) := splitMix p.state
    (word, { p with state := state, drawn := p.drawn + 1 })

end RuleCardinality.Random
