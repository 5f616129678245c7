/-! # The ChaCha generator with twelve rounds

A stream of 32-bit words that depends only on a 64-bit seed. The seed is expanded to a key of eight
words. Each block of sixteen words comes from a start made of constants, the key and the number of
the block: six double rounds are applied to the start, and the start is added to what they give.

* `ChaCha.key`: the key of a seed.
* `ChaCha.block`: the block of a number under a key.
* `ChaCha.word`: the word at a place of the stream of a seed. -/

namespace FourWorlds.ChaCha

/-! ### Expanding a seed -/

/-- The state of the expansion after the given one. -/
def nextState (state : UInt64) : UInt64 := state * 6364136223846793005 + 11634580027462260723

/-- The state of the expansion after a number of steps from the seed. -/
def stateAfter (seed : UInt64) : Nat → UInt64
  | 0 => seed
  | n + 1 => nextState (stateAfter seed n)

/-- A word with its bits rotated toward the high end. -/
def rotateLeft (w : UInt32) (places : UInt32) : UInt32 :=
  (w <<< places) ||| (w >>> (32 - places))

/-- A word with its bits rotated toward the low end. -/
def rotateRight (w : UInt32) (places : UInt32) : UInt32 :=
  (w >>> places) ||| (w <<< (32 - places))

/-- The word that a state of the expansion gives. -/
def output (state : UInt64) : UInt32 :=
  rotateRight (((state >>> 18) ^^^ state) >>> 27).toUInt32 (state >>> 59).toUInt32

/-- The key of a seed. -/
def key (seed : UInt64) : Vector UInt32 8 := .ofFn fun i => output (stateAfter seed (i + 1))

/-! ### Blocks -/

/-- Sixteen words. -/
abbrev Block := Vector UInt32 16

/-- The quarter round on four words of a block. -/
def quarterRound (words : Block) (i j k l : Fin 16) : Block :=
  let a := words[i] + words[j]
  let d := rotateLeft (words[l] ^^^ a) 16
  let c := words[k] + d
  let b := rotateLeft (words[j] ^^^ c) 12
  let a := a + b
  let d := rotateLeft (d ^^^ a) 8
  let c := c + d
  let b := rotateLeft (b ^^^ c) 7
  (((words.set i a).set j b).set k c).set l d

/-- The quarter rounds on the columns of a block and then on its diagonals. -/
def doubleRound (words : Block) : Block :=
  [(0, 4, 8, 12), (1, 5, 9, 13), (2, 6, 10, 14), (3, 7, 11, 15),
    (0, 5, 10, 15), (1, 6, 11, 12), (2, 7, 8, 13), (3, 4, 9, 14)].foldl
    (fun words (i, j, k, l) => quarterRound words i j k l) words

/-- A number of double rounds on a block. -/
def doubleRounds : Nat → Block → Block
  | 0, words => words
  | n + 1, words => doubleRounds n (doubleRound words)

/-- The words from which the block of a number is made. -/
def start (key : Vector UInt32 8) (number : Nat) : Block :=
  (#v[0x61707865, 0x3320646e, 0x79622d32, 0x6b206574] : Vector UInt32 4) ++ key
    ++ (#v[.ofNat number, .ofNat (number / UInt32.size), 0, 0] : Vector UInt32 4)

/-- The block of a number under a key. -/
def block (key : Vector UInt32 8) (number : Nat) : Block :=
  let words := start key number
  (doubleRounds 6 words).zipWith (· + ·) words

/-- The number of words after which the numbers of the blocks begin to repeat. -/
def period : Nat := UInt64.size * 16

/-- The word at a place of the stream of a seed, from zero. -/
def word (seed : UInt64) (place : Nat) : UInt32 :=
  (block (key seed) (place / 16)).get (Fin.ofNat 16 place)

end FourWorlds.ChaCha
