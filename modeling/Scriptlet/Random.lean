namespace Scriptlet

namespace Random

def rotateRight (x n : UInt32) : UInt32 :=
  (x >>> n) ||| (x <<< (32 - n))

def rotateLeft (x n : UInt32) : UInt32 :=
  (x <<< n) ||| (x >>> (32 - n))

/-- The next state of the generator that stretches a seed into a key. -/
def stretch (state : UInt64) : UInt64 :=
  state * 6364136223846793005 + 11634580027462260723

/-- The word that a state of that generator gives. -/
def keyWord (state : UInt64) : UInt32 :=
  let x := (((state >>> 18) ^^^ state) >>> 27).toUInt32
  let turn := (state >>> 59).toUInt32
  if turn = 0 then x else rotateRight x turn

def keyWords : Nat → UInt64 → List UInt32
  | 0, _ => []
  | n + 1, state =>
    let state := stretch state
    keyWord state :: keyWords n state

def quarterRound (block : Array UInt32) (a b c d : Nat) : Array UInt32 :=
  let wa := block.getD a 0
  let wb := block.getD b 0
  let wc := block.getD c 0
  let wd := block.getD d 0
  let wa := wa + wb
  let wd := rotateLeft (wd ^^^ wa) 16
  let wc := wc + wd
  let wb := rotateLeft (wb ^^^ wc) 12
  let wa := wa + wb
  let wd := rotateLeft (wd ^^^ wa) 8
  let wc := wc + wd
  let wb := rotateLeft (wb ^^^ wc) 7
  (((block.setIfInBounds a wa).setIfInBounds b wb).setIfInBounds c wc).setIfInBounds d wd

/-- Mixes all columns, then all diagonals. -/
def doubleRound (block : Array UInt32) : Array UInt32 :=
  let block := quarterRound block 0 4 8 12
  let block := quarterRound block 1 5 9 13
  let block := quarterRound block 2 6 10 14
  let block := quarterRound block 3 7 11 15
  let block := quarterRound block 0 5 10 15
  let block := quarterRound block 1 6 11 12
  let block := quarterRound block 2 7 8 13
  quarterRound block 3 4 9 14

def rounds : Nat → Array UInt32 → Array UInt32
  | 0, block => block
  | n + 1, block => rounds n (doubleRound block)

/-- The sixteen words of the stream with number `counter`. -/
def block (key : List UInt32) (counter : UInt64) : Array UInt32 :=
  let constants := [0x61707865, 0x3320646e, 0x79622d32, 0x6b206574]
  let first := (constants ++ key ++
    [counter.toUInt32, (counter >>> 32).toUInt32, 0, 0]).toArray
  Array.zipWith (· + ·) first (rounds 6 first)

end Random

/-- A source of random numbers: its key and how many numbers it gave. Words come from the ChaCha
stream cipher with twelve rounds, whose key is drawn from a seed; two words make one number in `[0,
1)`. -/
structure Random where
  key : List UInt32
  drawn : Nat

namespace Random

def ofSeed (seed : UInt64) : Random :=
  ⟨keyWords 8 seed, 0⟩

def next (r : Random) : Float × Random :=
  let words := block r.key (UInt64.ofNat (r.drawn / 8))
  let low := (words.getD (r.drawn % 8 * 2) 0).toUInt64
  let high := (words.getD (r.drawn % 8 * 2 + 1) 0).toUInt64
  let mantissa := ((high <<< 32) ||| low) >>> 11
  (mantissa.toFloat * Float.ofBits 0x3CA0000000000000, { r with drawn := r.drawn + 1 })

end Random

end Scriptlet
