import BranchBound.Fault

/-!
# Seeded random decisions

A search takes random decisions from a `Coin`, of which nothing is said but what comes of its
tosses. Unless another one is chosen, it is the coin of a small deterministic generator: 256 bits of
state, advanced by shifts, rotations and exclusive-or, with an output which sums and rotates two of
its words. The state is filled from a 64 bit seed by a congruential generator whose high bits are
permuted. The same seed always gives the same decisions.
-/

namespace BranchBound

/-- A source of decisions between two outcomes: what comes of every toss, and how often it was
tossed. -/
structure Coin where
  outcome : Nat → Bool
  tosses : Nat

def Coin.toss (c : Coin) : Bool × Coin := (c.outcome c.tosses, { c with tosses := c.tosses + 1 })

/-- The state of the generator. -/
structure Generator where
  s0 : UInt64
  s1 : UInt64
  s2 : UInt64
  s3 : UInt64
  deriving DecidableEq, Repr

namespace Generator

def rotateLeft64 (x : UInt64) (k : UInt64) : UInt64 := (x <<< k) ||| (x >>> (64 - k))

/-- Rotation to the right by an amount below 32. -/
def rotateRight32 (x : UInt32) (k : UInt32) : UInt32 :=
  if k == 0 then x else (x >>> k) ||| (x <<< (32 - k))

/-- One step of the seeding sequence: its next state and a permuted 32 bit word of it. -/
def seedStep (state : UInt64) : UInt64 × UInt64 :=
  let next := state * 6364136223846793005 + 11634580027462260723
  let mixed := (((next >>> 18) ^^^ next) >>> 27).toUInt32
  (next, (rotateRight32 mixed (next >>> 59).toUInt32).toUInt64)

/-- Two steps of the seeding sequence as one word, the first one in the low half. -/
def seedWord (state : UInt64) : UInt64 × UInt64 :=
  let (state, low) := seedStep state
  let (state, high) := seedStep state
  (state, low ||| (high <<< 32))

/-- The generator of a seed. -/
def ofSeed (seed : UInt64) : Generator :=
  let (state, s0) := seedWord seed
  let (state, s1) := seedWord state
  let (state, s2) := seedWord state
  let (_, s3) := seedWord state
  ⟨s0, s1, s2, s3⟩

/-- The next 64 random bits. -/
def next (g : Generator) : UInt64 × Generator :=
  let output := rotateLeft64 (g.s0 + g.s3) 23 + g.s0
  let t := g.s1 <<< 17
  let s2 := g.s2 ^^^ g.s0
  let s3 := g.s3 ^^^ g.s1
  let s1 := g.s1 ^^^ s2
  let s0 := g.s0 ^^^ s3
  (output, ⟨s0, s1, s2 ^^^ t, rotateLeft64 s3 45⟩)

/-- A decision which is true with the given probability. A certain decision uses no random bits;
a probability outside the unit interval is a fault. -/
def decide (g : Generator) (probability : Float) : Checked (Bool × Generator) :=
  if probability == 1.0 then .ok (true, g)
  else if 0.0 ≤ probability && probability < 1.0 then
    let threshold := (probability * 18446744073709551616.0).toUInt64
    let (bits, g) := g.next
    .ok (bits < threshold, g)
  else .error .invalidProbability

/-- A decision between two equally likely outcomes. -/
def toss (g : Generator) : Bool × Generator :=
  let (bits, g) := g.next
  (bits < 9223372036854775808, g)

/-- The generator after a number of tosses. -/
def after (g : Generator) : Nat → Generator
  | 0 => g
  | tosses + 1 => (g.after tosses).toss.2

/-- The coin of a seed. -/
def coin (seed : UInt64) : Coin := ⟨fun n => ((ofSeed seed).after n).toss.1, 0⟩

end Generator

end BranchBound
