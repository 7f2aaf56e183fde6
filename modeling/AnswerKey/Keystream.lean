/-! Streams of random words: those of a ChaCha generator with twelve rounds, and
given ones. -/
namespace AnswerKey

abbrev Words := Nat → UInt64

namespace Keystream

structure Row where
  a : UInt32
  b : UInt32
  c : UInt32
  d : UInt32

namespace Row

def zip (op : UInt32 → UInt32 → UInt32) (r s : Row) : Row :=
  ⟨op r.a s.a, op r.b s.b, op r.c s.c, op r.d s.d⟩

def turn (r : Row) : Row := ⟨r.b, r.c, r.d, r.a⟩

def toList (r : Row) : List UInt32 := [r.a, r.b, r.c, r.d]

end Row

structure Block where
  top : Row
  second : Row
  third : Row
  bottom : Row

def Block.toList (s : Block) : List UInt32 :=
  s.top.toList ++ s.second.toList ++ s.third.toList ++ s.bottom.toList

def rotateLeft (x n : UInt32) : UInt32 := (x <<< n) ||| (x >>> (32 - n))

def mix (n : UInt32) (x y z : Row) : Row × Row :=
  let x := x.zip (· + ·) y
  (x, z.zip (fun u v => rotateLeft (u ^^^ v) n) x)

def columnRound (s : Block) : Block :=
  let (a, d) := mix 16 s.top s.second s.bottom
  let (c, b) := mix 12 s.third d s.second
  let (a, d) := mix 8 a b d
  let (c, b) := mix 7 c d b
  ⟨a, b, c, d⟩

/-- Turns the rows so that the diagonals become columns. -/
def slant (s : Block) : Block := ⟨s.top, s.second.turn, s.third.turn.turn, s.bottom.turn.turn.turn⟩

def unslant (s : Block) : Block :=
  ⟨s.top, s.second.turn.turn.turn, s.third.turn.turn, s.bottom.turn⟩

def doubleRound (s : Block) : Block := unslant (columnRound (slant (columnRound s)))

def doubleRounds : Nat → Block → Block
  | 0, s => s
  | n + 1, s => doubleRounds n (doubleRound s)

structure Key where
  first : Row
  last : Row

def constants : Row := ⟨0x61707865, 0x3320646E, 0x79622D32, 0x6B206574⟩

def block (key : Key) (number : UInt64) : List UInt32 :=
  let start : Block :=
    ⟨constants, key.first, key.last, ⟨number.toUInt32, (number >>> 32).toUInt32, 0, 0⟩⟩
  List.zipWith (· + ·) (doubleRounds 6 start).toList start.toList

/-- A word of the stream is two words of a block, the low half first. -/
def words (key : Key) : Words := fun n =>
  let place := 2 * (n % 8)
  let ws := block key (UInt64.ofNat (n / 8))
  (ws.getD place 0).toUInt64 ||| ((ws.getD (place + 1) 0).toUInt64 <<< 32)

def seedStep (s : UInt64) : UInt64 := s * 6364136223846793005 + 11634580027462260723

def seedWord (s : UInt64) : UInt32 :=
  let x := (((s >>> 18) ^^^ s) >>> 27).toUInt32
  let n := (s >>> 59).toUInt32
  (x >>> n) ||| (x <<< ((32 - n) % 32))

def seedRow (s : UInt64) : Row × UInt64 :=
  let s1 := seedStep s
  let s2 := seedStep s1
  let s3 := seedStep s2
  let s4 := seedStep s3
  (⟨seedWord s1, seedWord s2, seedWord s3, seedWord s4⟩, s4)

def keyOfSeed (seed : UInt64) : Key :=
  let (first, s) := seedRow seed
  ⟨first, (seedRow s).1⟩

end Keystream

def Words.ofSeed (seed : UInt64) : Words := Keystream.words (Keystream.keyOfSeed seed)

def Words.ofList (ws : List UInt64) : Words := fun n => ws.getD n 0

end AnswerKey
