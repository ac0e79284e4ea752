import MayAlias.DenseIndex

/-!
# Bit sets

A set of dense indices kept as an array of 64-bit words, least index first: element number `i` is
bit `i % 64` of word `i / 64`.  The words grow on demand.  Words are read through `word`, which is
zero behind the end.  They are compared up to the last one that is not zero, so that two sets with
the same elements compare equal whatever their lengths.

Three things live here:

* the operations on single words, with the elements read through `bit`;
* `BitSet` with insertion, union and the comparisons; insertion and union tell whether the set grew,
  and `insert?` refuses an element too far out to be stored;
* `Cursor`, the walk over the set bits in ascending order.
-/

namespace MayAlias

/-! ## Words -/

namespace Word

/-- The `k`-th bit of a word. -/
def bit (w : UInt64) (k : Nat) : Bool := (w >>> UInt64.ofNat k) &&& 1 != 0

/-- The word whose only bit is number `k`, for `k < 64`. -/
def single (k : Nat) : UInt64 := 1 <<< UInt64.ofNat k

/-- How many of the lowest `k` bits are set. -/
def onesBelow (w : UInt64) : Nat → Nat
  | 0 => 0
  | k + 1 => onesBelow w k + (if bit w k then 1 else 0)

/-- The number of set bits. -/
def ones (w : UInt64) : Nat := if w == 0 then 0 else onesBelow w 64

/-- The first set bit at or after `k`, looking at `n` bits; `k + n` when there is none. -/
def firstFrom (w : UInt64) (k : Nat) : Nat → Nat
  | 0 => k
  | n + 1 => if bit w k then k else firstFrom w (k + 1) n

/-- The number of the lowest set bit, 64 for the zero word. -/
def lowest (w : UInt64) : Nat := firstFrom w 0 64

/-- Puts `op old w` in the place of each word `old`, as long as there is a word `w` to go with it.
The bits that change are gathered in `changed`. -/
def combine (op : UInt64 → UInt64 → UInt64) (changed : UInt64) :
    List UInt64 → List UInt64 → List UInt64 × UInt64
  | old :: out, w :: ins =>
    let new := op old w
    let (rest, changed) := combine op (changed ||| (old ^^^ new)) out ins
    (new :: rest, changed)
  | out, _ => (out, changed)

end Word

/-- The number of words needed for `n` bits. -/
def wordsFor (n : Nat) : Nat := (n + 63) / 64

/-- Appends zero words until there are at least `n` words. -/
def grow (words : Array UInt64) (n : Nat) : Array UInt64 :=
  words ++ Array.replicate (n - words.size) 0

/-! ## Bit sets -/

/-- A set of elements of `α`, one bit for each index. -/
structure BitSet (α : Type) where
  /-- The words, least index first. -/
  words : Array UInt64

namespace BitSet

variable {α : Type}

/-- The set without elements. -/
def empty : BitSet α := ⟨#[]⟩

/-- The `i`-th word, zero behind the last one. -/
def word (s : BitSet α) (i : Nat) : UInt64 := s.words.getD i 0

/-- The set without elements, in the place of `s`. -/
def clear (s : BitSet α) : BitSet α := { s with words := #[] }

/-- The elements of `source`, in the place of those of `s`. -/
def copy (s source : BitSet α) : BitSet α := { s with words := source.words }

/-- Is every word zero? -/
def isEmpty (s : BitSet α) : Bool := s.words.all (· == 0)

/-- The number of elements. -/
def count (s : BitSet α) : Nat := s.words.foldl (fun n w => n + Word.ones w) 0

/-- Does `s` hold every element of `t`? -/
def superset (s t : BitSet α) : Bool :=
  t.words.size.all fun i _ => (s.word i &&& t.word i) == t.word i

/-- Do `s` and `t` share an element?  Words behind the end of the shorter set are left out. -/
def intersects (s t : BitSet α) : Bool :=
  (s.words.toList.zip t.words.toList).any fun (a, b) => (a &&& b) != 0

/-- The union, and whether it is larger than `s`. -/
def union (s t : BitSet α) : BitSet α × Bool :=
  let room := grow s.words (wordsFor (64 * t.words.size))
  let (words, changed) := Word.combine (· ||| ·) 0 room.toList t.words.toList
  (⟨words.toArray⟩, changed != 0)

/-- How many of the first `n` words there are up to and including the last one that is not zero. -/
def significant (s : BitSet α) : Nat → Nat
  | 0 => 0
  | n + 1 => if s.word n != 0 then n + 1 else s.significant n

/-- The words up to and including the last one that is not zero. -/
def significantWords (s : BitSet α) : Array UInt64 := s.words.take (s.significant s.words.size)

/-- Sets with the same elements are equal, whatever the number of trailing zero words. -/
instance : BEq (BitSet α) := ⟨fun s t => s.significantWords == t.significantWords⟩

variable [DenseIndex α]

/-- The word that holds an element's bit. -/
def wordIndex (a : α) : Nat := (DenseIndex.index a).toNat / 64

/-- An element's bit in its word. -/
def mask (a : α) : UInt64 := Word.single ((DenseIndex.index a).toNat % 64)

/-- Is `a` an element of `s`? -/
def contains (s : BitSet α) (a : α) : Bool := (s.word (wordIndex a) &&& mask a) != 0

/-- Word storage with room for `a`. -/
def room (s : BitSet α) (a : α) : Array UInt64 :=
  grow s.words (wordsFor ((DenseIndex.index a).toNat + 1))

/-- Adds an element; the flag tells whether it is new. -/
def insert (s : BitSet α) (a : α) : BitSet α × Bool :=
  let old := s.word (wordIndex a)
  let new := old ||| mask a
  (⟨(s.room a).setIfInBounds (wordIndex a) new⟩, new != old)

/-- Can the bit of `a` be stored?  Its room is counted in bits up to and including its own, plus one
word to round up, and that count has to be a 64-bit word itself. -/
def storable (a : α) : Bool := (DenseIndex.index a).toNat + 65 < 18446744073709551616

/-- Adds an element whose bit can be stored. -/
def insert? (s : BitSet α) (a : α) : Option (BitSet α × Bool) :=
  if storable a then some (s.insert a) else none

end BitSet

/-! ## Walking the set bits -/

/-- A place in the walk over an array of words: the bits of the current word still to come, the
index of that word's lowest bit, and the number of words behind it. -/
structure Cursor where
  word : UInt64
  offset : UInt64
  rest : Nat

namespace Cursor

/-- Before the first word.  The offset lies 64 below zero and wraps to zero with the first word. -/
def start (words : Array UInt64) : Cursor := ⟨0, 0 - 64, words.size⟩

/-- The next set bit's index, searching from a word with its offset through the last `rest`
words. -/
def advance (words : Array UInt64) (word offset : UInt64) (rest : Nat) :
    Option (UInt64 × Cursor) :=
  if word != 0 then
    let k := Word.lowest word
    some (UInt64.ofNat k + offset, ⟨word ^^^ Word.single k, offset, rest⟩)
  else
    match rest with
    | 0 => none
    | n + 1 => advance words (words.getD (words.size - (n + 1)) 0) (offset + 64) n
termination_by structural rest

/-- The next index and the place after it, or nothing at the end. -/
def next? (words : Array UInt64) (c : Cursor) : Option (UInt64 × Cursor) :=
  advance words c.word c.offset c.rest

/-- The next indices, at most `n` of them. -/
def take (words : Array UInt64) (c : Cursor) : Nat → List UInt64
  | 0 => []
  | n + 1 =>
    match c.next? words with
    | none => []
    | some (i, c') => i :: take words c' n

end Cursor

namespace BitSet

variable {α : Type}

/-- The indices of the elements in ascending order.  A word yields at most 64 of them. -/
def indices (s : BitSet α) : List UInt64 :=
  (Cursor.start s.words).take s.words (64 * s.words.size)

/-- The elements in ascending order of index. -/
def toList [DenseIndex α] (s : BitSet α) : List α := s.indices.filterMap DenseIndex.ofIndex?

end BitSet

end MayAlias
