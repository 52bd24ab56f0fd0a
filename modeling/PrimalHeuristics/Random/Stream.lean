import PrimalHeuristics.Scalar

/-!
# Random streams

A stream is the ChaCha key stream with eight rounds, read as 64 bit words. It is settled by its key
and by the number of words that were drawn from it: the word at a position does not depend on how
the earlier ones were used. A key is spread from a 64 bit seed by a small generator of the PCG
family.

* `Stream.ofSeed`, `Stream.next`, `Stream.uniform`: a stream, its next word, its next number;
* `Stream.wordAt`: the word at a position.
-/

namespace PrimalHeuristics

namespace ChaCha

/-- The words of a block. -/
abbrev State := Vector UInt32 16

/-- The word turned to the left by `0 < k < 32` places. -/
def rotate (x k : UInt32) : UInt32 :=
  (x <<< k) ||| (x >>> (32 - k))

/-- Four words are mixed with one another. -/
def quarterRound (s : State) (i j k l : Fin 16) : State :=
  let a := s[i] + s[j]
  let d := rotate (s[l] ^^^ a) 16
  let c := s[k] + d
  let b := rotate (s[j] ^^^ c) 12
  let a := a + b
  let d := rotate (d ^^^ a) 8
  let c := c + d
  let b := rotate (b ^^^ c) 7
  (((s.set i a).set j b).set k c).set l d

/-- Two rounds: the columns, then the diagonals. -/
def doubleRound (s : State) : State :=
  let s := quarterRound s 0 4 8 12
  let s := quarterRound s 1 5 9 13
  let s := quarterRound s 2 6 10 14
  let s := quarterRound s 3 7 11 15
  let s := quarterRound s 0 5 10 15
  let s := quarterRound s 1 6 11 12
  let s := quarterRound s 2 7 8 13
  quarterRound s 3 4 9 14

/-- The state in which a block starts: constants, key and block number. -/
def start (key : Vector UInt32 8) (block : UInt64) : State :=
  #v[0x61707865, 0x3320646E, 0x79622D32, 0x6B206574,
    key[0], key[1], key[2], key[3], key[4], key[5], key[6], key[7],
    block.toUInt32, (block >>> 32).toUInt32, 0, 0]

/-- A block of the key stream, with eight rounds. -/
def block (key : Vector UInt32 8) (n : UInt64) : State :=
  let s := start key n
  let t := doubleRound (doubleRound (doubleRound (doubleRound s)))
  Vector.zipWith (· + ·) s t

end ChaCha

/-- A random stream, after some words were drawn from it. -/
structure Stream where
  key : Vector UInt32 8
  drawn : Nat
  deriving DecidableEq

namespace Stream

/-- One step of the generator that spreads a seed. -/
def seedStep (state : UInt64) : UInt64 :=
  state * 6364136223846793005 + 11634580027462260723

/-- The word that the generator gives out in a state. -/
def seedWord (state : UInt64) : UInt32 :=
  let x := (((state >>> 18) ^^^ state) >>> 27).toUInt32
  let r := (state >>> 59).toUInt32
  if r = 0 then x else (x >>> r) ||| (x <<< (32 - r))

/-- The state of the generator after some steps. -/
def seedState (seed : UInt64) : Nat → UInt64
  | 0 => seed
  | n + 1 => seedStep (seedState seed n)

/-- The stream of a seed, from its beginning. -/
def ofSeed (seed : UInt64) : Stream :=
  ⟨Vector.ofFn fun i => seedWord (seedState seed (i.val + 1)), 0⟩

/-- The word at a position of the stream: two words of a block, the lower one first. -/
def wordAt (s : Stream) (n : Nat) : UInt64 :=
  let b := ChaCha.block s.key (n / 8).toUInt64
  let low := b.get ⟨2 * (n % 8), by omega⟩
  let high := b.get ⟨2 * (n % 8) + 1, by omega⟩
  (high.toUInt64 <<< 32) ||| low.toUInt64

/-- The next word. -/
def next (s : Stream) : UInt64 × Stream :=
  (s.wordAt s.drawn, ⟨s.key, s.drawn + 1⟩)

/-- The number in the unit interval that the upper 53 bits of a word stand for. -/
def unitOfWord (α : Type) [Scalar α] (w : UInt64) : α :=
  Scalar.ofNat (w >>> 11).toNat / Scalar.ofNat (Nat.pow 2 53)

/-- The next number, from zero on and below one. -/
def uniform (α : Type) [Scalar α] (s : Stream) : α × Stream :=
  (unitOfWord α s.next.1, s.next.2)

/-- The next `n` words, in order. -/
def take (s : Stream) (n : Nat) : List UInt64 × Stream :=
  ((List.range n).map fun i => s.wordAt (s.drawn + i), ⟨s.key, s.drawn + n⟩)

end Stream

end PrimalHeuristics
