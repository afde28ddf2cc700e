import Cose.Algorithm
import Cose.Bytes

namespace Cose

namespace Bytes

/-- The consecutive pieces of `n` bytes, the last of which may be shorter. -/
def chunks (n : Nat) (bs : Bytes) : List Bytes :=
  if h : n = 0 ∨ bs = [] then []
  else
    have : (bs.drop n).length < bs.length := by
      have hb : 0 < bs.length := List.length_pos_iff.mpr fun hn => h (.inr hn)
      rw [List.length_drop]
      omega
    bs.take n :: chunks n (bs.drop n)
termination_by bs.length

end Bytes

namespace Sha2

def isPrime (n : Nat) : Bool :=
  2 ≤ n && (List.range n).all fun d => d < 2 || n % d != 0

def primes : List Nat :=
  (List.range 410).filter isPrime

/-- The largest number whose power does not exceed `n` among those that exceed `low` by a number of
so many bits. -/
def rootFrom (power n : Nat) : (bits low : Nat) → Nat
  | 0, low => low
  | bits + 1, low =>
    let next := low + 1 <<< bits
    rootFrom power n bits (if next.pow power ≤ n then next else low)

/-- The first 64 bits after the point of a root of a small number. -/
def rootFraction (power n : Nat) : Nat :=
  rootFrom power (n <<< (64 * power)) 70 0 % 1 <<< 64

/-- The round constants in their longer form: fractions of the cube roots of the first primes. -/
def roundConstants : Array Nat :=
  (primes.map (rootFraction 3)).toArray

/-- The eight words from which hashing starts: fractions of the square roots of eight primes. -/
def startWords (ps : List Nat) : List Nat :=
  ps.map (rootFraction 2)

/-- What distinguishes the two word sizes: the bits in a word, the number of rounds, and how far the
four mixing functions turn a word, the last two of them shifting it by their third amount. -/
structure Shape where
  width : Nat
  rounds : Nat
  choiceTurns : Nat × Nat × Nat
  majorityTurns : Nat × Nat × Nat
  earlyTurns : Nat × Nat × Nat
  lateTurns : Nat × Nat × Nat

def short : Shape where
  width := 32
  rounds := 64
  choiceTurns := (6, 11, 25)
  majorityTurns := (2, 13, 22)
  earlyTurns := (7, 18, 3)
  lateTurns := (17, 19, 10)

def long : Shape where
  width := 64
  rounds := 80
  choiceTurns := (14, 18, 41)
  majorityTurns := (28, 34, 39)
  earlyTurns := (1, 8, 7)
  lateTurns := (19, 61, 6)

namespace Shape

abbrev Word (s : Shape) := BitVec s.width

def wordLength (s : Shape) : Nat := s.width / 8

/-- The length of a block of sixteen words in bytes. -/
def blockLength (s : Shape) : Nat := 16 * s.wordLength

/-- A constant given by its 64-bit form. -/
def word (s : Shape) (n : Nat) : s.Word := BitVec.ofNat s.width (n >>> (64 - s.width))

/-- Three turned copies of a word together. -/
def turn (s : Shape) (turns : Nat × Nat × Nat) (x : s.Word) : s.Word :=
  x.rotateRight turns.1 ^^^ x.rotateRight turns.2.1 ^^^ x.rotateRight turns.2.2

/-- Two turned copies of a word and a shifted one together. -/
def spread (s : Shape) (turns : Nat × Nat × Nat) (x : s.Word) : s.Word :=
  x.rotateRight turns.1 ^^^ x.rotateRight turns.2.1 ^^^ (x >>> turns.2.2)

end Shape

/-- The eight words that a block transforms. -/
structure State (s : Shape) where
  a : s.Word
  b : s.Word
  c : s.Word
  d : s.Word
  e : s.Word
  f : s.Word
  g : s.Word
  h : s.Word

namespace State

variable {s : Shape}

def ofNats (s : Shape) (ns : List Nat) : State s :=
  let nth (i : Nat) : s.Word := s.word (ns.getD i 0)
  ⟨nth 0, nth 1, nth 2, nth 3, nth 4, nth 5, nth 6, nth 7⟩

def toList (t : State s) : List s.Word := [t.a, t.b, t.c, t.d, t.e, t.f, t.g, t.h]

def add (t u : State s) : State s :=
  ⟨t.a + u.a, t.b + u.b, t.c + u.c, t.d + u.d, t.e + u.e, t.f + u.f, t.g + u.g, t.h + u.h⟩

/-- One round with the scheduled word and the round constant added up. -/
def round (t : State s) (input : s.Word) : State s :=
  let choice := (t.e &&& t.f) ^^^ (~~~t.e &&& t.g)
  let majority := (t.a &&& t.b) ^^^ (t.a &&& t.c) ^^^ (t.b &&& t.c)
  let one := t.h + s.turn s.choiceTurns t.e + choice + input
  let two := s.turn s.majorityTurns t.a + majority
  ⟨one + two, t.a, t.b, t.c, t.d + one, t.e, t.f, t.g⟩

end State

/-- The words scheduled for the rounds, sixteen from the block and the others computed from earlier
ones. -/
def schedule (s : Shape) (block : Bytes) : Array s.Word :=
  let start : Array s.Word :=
    ((Bytes.chunks s.wordLength block).map fun w => BitVec.ofNat s.width (Bytes.toNat w)).toArray
  (List.range (s.rounds - 16)).foldl (fun ws i =>
    ws.push (ws.getD i 0 + s.spread s.earlyTurns (ws.getD (i + 1) 0) + ws.getD (i + 9) 0
      + s.spread s.lateTurns (ws.getD (i + 14) 0))) start

/-- The state after one more block. -/
def compress {s : Shape} (t : State s) (block : Bytes) : State s :=
  let ws := schedule s block
  t.add ((List.range s.rounds).foldl (fun u i =>
    u.round (ws.getD i 0 + s.word (roundConstants.getD i 0))) t)

/-- The data followed by a set bit, zeros and the number of its bits, so as to fill blocks. -/
def pad (s : Shape) (data : Bytes) : Bytes :=
  let tail := 1 + 2 * s.wordLength
  let gap := (s.blockLength - (data.length + tail) % s.blockLength) % s.blockLength
  data ++ 0x80 :: List.replicate gap 0 ++ Bytes.ofNat (2 * s.wordLength) (8 * data.length)

/-- The state of eight constants after all blocks of the data, as bytes. -/
def digest (s : Shape) (start : List Nat) (data : Bytes) : Bytes :=
  let last := (Bytes.chunks s.blockLength (pad s data)).foldl compress (State.ofNats s start)
  last.toList.flatMap fun w => Bytes.ofNat s.wordLength w.toNat

/-- The starting words of the functions with 256 and 512 bits. -/
def firstStart : List Nat := startWords (primes.take 8)

/-- The starting words of the function with 384 bits. -/
def secondStart : List Nat := startWords ((primes.drop 8).take 8)

end Sha2

namespace Hash

def name : Hash → String
  | sha256 => "Sha256"
  | sha384 => "Sha384"
  | sha512 => "Sha512"

/-- The length in bytes of the blocks that the function works on. -/
def blockLength : Hash → Nat
  | sha256 => Sha2.short.blockLength
  | sha384 | sha512 => Sha2.long.blockLength

def digest : Hash → Bytes → Bytes
  | sha256, data => Sha2.digest Sha2.short Sha2.firstStart data
  | sha384, data => (Sha2.digest Sha2.long Sha2.secondStart data).take 48
  | sha512, data => Sha2.digest Sha2.long Sha2.firstStart data

end Hash

end Cose
