/-!
# A digest of words

`digest seed words` is the 64 bit XXH64 hash of a sequence of 64 bit words, each taken as eight
bytes with the lowest first. Four words at a time fill a stripe of four lanes; the words that fill
no stripe are mixed in one by one.
-/

namespace PrimalHeuristics

namespace Digest

def prime1 : UInt64 := 11400714785074694791
def prime2 : UInt64 := 14029467366897019727
def prime3 : UInt64 := 1609587929392839161
def prime4 : UInt64 := 9650029242287828579
def prime5 : UInt64 := 2870177450012600261

/-- The word turned to the left by `0 < k < 64` places. -/
def rotate (x k : UInt64) : UInt64 :=
  (x <<< k) ||| (x >>> (64 - k))

/-- One word goes into a lane. -/
def absorb (lane word : UInt64) : UInt64 :=
  rotate (lane + word * prime2) 31 * prime1

/-- The four lanes of a stripe. -/
structure Lanes where
  first : UInt64
  second : UInt64
  third : UInt64
  fourth : UInt64

/-- The lanes before the first stripe. -/
def Lanes.start (seed : UInt64) : Lanes :=
  ⟨seed + prime1 + prime2, seed + prime2, seed, seed - prime1⟩

/-- The lanes after all whole stripes, and the words that are left. -/
def Lanes.absorbAll : Lanes → List UInt64 → Lanes × List UInt64
  | l, a :: b :: c :: d :: rest =>
    absorbAll ⟨absorb l.first a, absorb l.second b, absorb l.third c, absorb l.fourth d⟩ rest
  | l, rest => (l, rest)

/-- The four lanes in one word. -/
def Lanes.merge (l : Lanes) : UInt64 :=
  let h := rotate l.first 1 + rotate l.second 7 + rotate l.third 12 + rotate l.fourth 18
  [l.first, l.second, l.third, l.fourth].foldl
    (fun h lane => (h ^^^ absorb 0 lane) * prime1 + prime4) h

/-- One of the words that fill no stripe is mixed in. -/
def mix (h word : UInt64) : UInt64 :=
  rotate (h ^^^ absorb 0 word) 27 * prime1 + prime4

/-- Spreads the bits of the word. -/
def finish (h : UInt64) : UInt64 :=
  let h := (h ^^^ (h >>> 33)) * prime2
  let h := (h ^^^ (h >>> 29)) * prime3
  h ^^^ (h >>> 32)

end Digest

open Digest in
/-- The hash of a sequence of words. -/
def digest (seed : UInt64) (words : List UInt64) : UInt64 :=
  let (lanes, rest) := (Lanes.start seed).absorbAll words
  let h := if words.length < 4 then seed + prime5 else lanes.merge
  finish (rest.foldl mix (h + 8 * words.length.toUInt64))

end PrimalHeuristics
