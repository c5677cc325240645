/-
  Streams of samples from the unit interval.

  A measurement consumes one sample.  Nothing else about a stream matters to an engine, so a stream
  is simply a function from the number of the draw.  The stream of a seed is the keystream of the
  ChaCha cipher with twelve rounds, whose key is spread from the seed by a linear congruential
  generator; each draw takes two words of it and keeps 53 bits.
-/
namespace QubitBasic

/-- The sample of each draw, from draw 0 on. -/
abbrev Samples := Nat → Float

namespace Samples

/-- The word `x` rotated left by `n` places. -/
def rotateLeft (x n : UInt32) : UInt32 := (x <<< n) ||| (x >>> (32 - n))

/-- The sixteen words of the cipher's state. -/
abbrev Block := Vector UInt32 16

/-- One quarter of a round, on the words at four positions. -/
def quarterRound (a b c d : Fin 16) (s : Block) : Block :=
  let s := s.set a (s[a] + s[b])
  let s := s.set d (rotateLeft (s[d] ^^^ s[a]) 16)
  let s := s.set c (s[c] + s[d])
  let s := s.set b (rotateLeft (s[b] ^^^ s[c]) 12)
  let s := s.set a (s[a] + s[b])
  let s := s.set d (rotateLeft (s[d] ^^^ s[a]) 8)
  let s := s.set c (s[c] + s[d])
  s.set b (rotateLeft (s[b] ^^^ s[c]) 7)

/-- Two rounds: the columns, then the diagonals. -/
def doubleRound (s : Block) : Block :=
  let s := quarterRound 3 7 11 15 (quarterRound 2 6 10 14 (quarterRound 1 5 9 13 (quarterRound 0 4 8 12 s)))
  quarterRound 3 4 9 14 (quarterRound 2 7 8 13 (quarterRound 1 6 11 12 (quarterRound 0 5 10 15 s)))

/-- The key that a seed is spread to. -/
def key (seed : UInt64) : Vector UInt32 8 :=
  let next (s : UInt64) : UInt64 := s * 6364136223846793005 + 11634580027462260723
  Vector.ofFn fun i : Fin 8 =>
    let s := Nat.repeat next (i + 1) seed
    let x := (((s >>> 18) ^^^ s) >>> 27).toUInt32
    let r := (s >>> 59).toUInt32
    if r = 0 then x else rotateLeft x (32 - r)

/-- The state at the start of block `counter`. -/
def input (k : Vector UInt32 8) (counter : Nat) : Block :=
  #v[0x61707865, 0x3320646e, 0x79622d32, 0x6b206574,
    k[0], k[1], k[2], k[3], k[4], k[5], k[6], k[7],
    UInt32.ofNat counter, UInt32.ofNat (counter >>> 32), 0, 0]

/-- The keystream words of block `counter`: twelve rounds, added to the state they started from. -/
def block (k : Vector UInt32 8) (counter : Nat) : Block :=
  let s := input k counter
  Vector.zipWith (· + ·) (Nat.repeat doubleRound 6 s) s

/-- The double `n · 2 ^ -53`, for `n` below `2 ^ 53`. -/
def unitFraction (n : UInt64) : Float := n.toFloat * Float.ofBits 0x3CA0000000000000

/-- The stream of a seed. -/
def ofSeed (seed : UInt64) : Samples :=
  let k := key seed
  fun draw =>
    let words := block k (draw / 8)
    let i : Fin 8 := Fin.ofNat 8 draw
    let low := words[2 * i.val]
    let high := words[2 * i.val + 1]
    unitFraction ((low.toUInt64 ||| (high.toUInt64 <<< 32)) >>> 11)

end Samples

end QubitBasic
