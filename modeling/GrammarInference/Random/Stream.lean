/-
GrammarInference/Random/Stream.lean

A reproducible stream of random words: ChaCha with eight rounds, and uniform choice from a list.

Design.  The seed is stretched to a key of eight words by a linear congruential generator.  The stream is the
sequence of ChaCha blocks for the counters from zero on, word by word; the words of the current block that were
not used yet are kept.  A choice among `n` draws words until the low half of the product with `n` falls into a
zone where every index is equally likely; the high half is the index.
-/

namespace GrammarInference

/-! ### Blocks -/

/-- The sixteen words of a block. -/
abbrev Block := Vector UInt32 16

namespace Block

/-- Rotates a word to the left by less than its width. -/
def rotateLeft (x : UInt32) (n : UInt32) : UInt32 := (x <<< n) ||| (x >>> (32 - n))

/-- Adds the word at `b` to the one at `a`, mixes the sum into the one at `d` and rotates that by `n`. -/
def mix (v : Block) (a b d : Fin 16) (n : UInt32) : Block :=
  let v := v.set a (v[a] + v[b])
  v.set d (rotateLeft (v[d] ^^^ v[a]) n)

/-- The quarter round on four words. -/
def quarterRound (v : Block) (a b c d : Fin 16) : Block :=
  mix (mix (mix (mix v a b d 16) c d b 12) a b d 8) c d b 7

/-- A round on the columns and one on the diagonals. -/
def doubleRound (v : Block) : Block :=
  let v := quarterRound v 0 4 8 12
  let v := quarterRound v 1 5 9 13
  let v := quarterRound v 2 6 10 14
  let v := quarterRound v 3 7 11 15
  let v := quarterRound v 0 5 10 15
  let v := quarterRound v 1 6 11 12
  let v := quarterRound v 2 7 8 13
  quarterRound v 3 4 9 14

/-- The block that a key and a counter start from. -/
def initial (key : Vector UInt32 8) (counter : Nat) : Block :=
  #v[0x61707865, 0x3320646e, 0x79622d32, 0x6b206574, key[0], key[1], key[2], key[3], key[4], key[5], key[6],
    key[7], UInt32.ofNat counter, UInt32.ofNat (counter / UInt32.size), 0, 0]

/-- The words of the stream for a counter. -/
def words (key : Vector UInt32 8) (counter : Nat) : List UInt32 :=
  let v := initial key counter
  let mixed := doubleRound (doubleRound (doubleRound (doubleRound v)))
  (mixed.zipWith (· + ·) v).toList

end Block

/-! ### The stream -/

/-- A stream of random words. -/
structure RandomStream where
  /-- The key. -/
  key : Vector UInt32 8
  /-- The number of the next block. -/
  counter : Nat
  /-- The words of the current block that are left. -/
  pending : List UInt32
  deriving DecidableEq

namespace RandomStream

/-- The state of the congruential generator behind `state`. -/
def stretch (state : UInt64) : UInt64 := state * 6364136223846793005 + 11634580027462260723

/-- The word that a state gives. -/
def stretchedWord (state : UInt64) : UInt32 :=
  let x := (((state >>> 18) ^^^ state) >>> 27).toUInt32
  let n := (state >>> 59).toUInt32
  (x >>> n) ||| (x <<< ((32 - n) % 32))

/-- The words that the states behind `state` give. -/
def stretchedWords : Nat → UInt64 → List UInt32
  | 0, _ => []
  | n + 1, state => stretchedWord (stretch state) :: stretchedWords n (stretch state)

/-- The key of a seed. -/
def keyOfSeed (seed : Nat) : Vector UInt32 8 :=
  Vector.ofFn fun i => (stretchedWords 8 (UInt64.ofNat seed))[i.val]?.getD 0

/-- The stream of a seed, from its start. -/
def ofSeed (seed : Nat) : RandomStream := ⟨keyOfSeed seed, 0, []⟩

/-- The next word. -/
def next (r : RandomStream) : UInt32 × RandomStream :=
  match r.pending with
  | w :: rest => (w, { r with pending := rest })
  | [] =>
    match Block.words r.key r.counter with
    | w :: rest => (w, { r with counter := r.counter + 1, pending := rest })
    | [] => (0, r)

/-- The largest low half of a product that a choice among `n` accepts. -/
def zone (n : Nat) : Nat := n * Nat.pow 2 (31 - n.log2) - 1

/-- Draws until a word is accepted, at most `tries` times; each draw is accepted with a chance above one
half. -/
def drawBelow (n : Nat) : Nat → RandomStream → Nat × RandomStream
  | 0, r => (0, r)
  | tries + 1, r =>
    let (w, r) := r.next
    let p := w.toNat * n
    if p % UInt32.size ≤ zone n then (p / UInt32.size, r) else drawBelow n tries r

/-- A number below `n`, for positive `n`. -/
def below (r : RandomStream) (n : Nat) : Nat × RandomStream := drawBelow n 1000 r

/-- An element of a list; of the empty list none, and then nothing is drawn. -/
def choose {α : Type} (r : RandomStream) (l : List α) : Option α × RandomStream :=
  match l with
  | [] => (none, r)
  | a :: rest =>
    let (i, r) := r.below (rest.length + 1)
    (((a :: rest)[i]?.getD a), r)

end RandomStream

end GrammarInference
