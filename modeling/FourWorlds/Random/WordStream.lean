import FourWorlds.Random.ChaCha

/-! # Streams of random words, and picks from them

A pick from `n` things multiplies a word by `n`: the high half of the product is the index, and the
word is refused if the low half is not below a bound that makes all indices equally likely.

* `WordStream`: words drawn one after another; `WordStream.ofList` and `WordStream.ofSeed` make one.
* `acceptedIndex?`: the index that a word picks, if it is not refused.
* `WordStream.pick`: one of the items of an array. -/

namespace FourWorlds

/-- Words drawn one after another. -/
structure WordStream where
  /-- The words, by their places from zero. -/
  word : Nat → UInt32
  /-- The number of words drawn so far. -/
  drawn : Nat
  /-- The number of refused words after which a pick is given up. -/
  patience : Nat

/-- A bound for the low half of the product, a multiple of `n` that has 32 bits. -/
def acceptanceBound (n : Nat) : Nat := n <<< (31 - n.log2)

/-- The index below `n` that a word picks, if the word is not refused. -/
def acceptedIndex? (n : Nat) (w : UInt32) : Option Nat :=
  let product := w.toNat * n
  if product % UInt32.size < acceptanceBound n then some (product / UInt32.size) else none

namespace WordStream

/-- The stream of the words of a list, followed by zeros without end. As a zero is never refused, no
pick looks at more words than the list has and one zero. -/
def ofList (words : List UInt32) : WordStream :=
  ⟨fun place => words.getD place 0, 0, words.length + 1⟩

/-- The stream of a seed. A pick is given up only after a whole period of refused words. -/
def ofSeed (seed : UInt64) : WordStream := ⟨ChaCha.word seed, 0, ChaCha.period⟩

/-- The first index that one of the next words picks, trying a number of them. -/
def index? (n : Nat) (words : WordStream) : Nat → Option Nat × WordStream
  | 0 => (none, words)
  | tries + 1 =>
    let rest := { words with drawn := words.drawn + 1 }
    match acceptedIndex? n (words.word words.drawn) with
    | some i => (some i, rest)
    | none => rest.index? n tries

/-- One of the items of an array, unless the pick is given up. -/
def pick {α : Type} (items : Array α) (words : WordStream) : Option α × WordStream :=
  let (i, rest) := words.index? items.size words.patience
  (i.bind (items[·]?), rest)

end WordStream

end FourWorlds
