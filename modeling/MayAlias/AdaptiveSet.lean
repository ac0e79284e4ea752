import MayAlias.BitSet

/-!
# Hybrid sets

A set keeps its elements in a list while there are few of them and in a bit set once there are
many.  A small set lists its elements in the order they came; a large one in ascending order.
Neither shows in the comparisons, which are those of finite sets.

A list holds any element, but a bit has to be stored somewhere.  `insert?` and `union?` are the
operations that refuse an element too far out as soon as it would have to become a bit.
-/

namespace MayAlias

/-- A set of dense indices in one of two forms. -/
inductive AdaptiveSet (α : Type) where
  /-- The elements in the order of their insertion. -/
  | small (elems : List α)
  /-- The elements as bits. -/
  | large (bits : BitSet α)

namespace AdaptiveSet

variable {α : Type}

/-- The most elements a small set holds. -/
def smallCapacity : Nat := 32

/-- The set without elements. -/
def empty : AdaptiveSet α := .small []

instance : Inhabited (AdaptiveSet α) := ⟨empty⟩

/-- Is the set kept as bits? -/
def isLarge : AdaptiveSet α → Bool
  | small _ => false
  | large _ => true

/-- The set without elements, in the place of `s`.  A large set becomes small. -/
def clear (s : AdaptiveSet α) : AdaptiveSet α :=
  match s with
  | small _ => small []
  | large _ => small []

/-- The elements of `source`, in their form, in the place of those of `s`. -/
def copy (_s source : AdaptiveSet α) : AdaptiveSet α :=
  match source with
  | small elems => small elems
  | large bits => large (BitSet.empty.copy bits)

/-- The number of elements. -/
def count : AdaptiveSet α → Nat
  | small elems => elems.length
  | large bits => bits.count

/-- Has the set no elements? -/
def isEmpty : AdaptiveSet α → Bool
  | small elems => elems.isEmpty
  | large bits => bits.isEmpty

variable [DenseIndex α] [DecidableEq α]

/-- The elements: a small set's in the order of insertion, a large set's ascending. -/
def toList : AdaptiveSet α → List α
  | small elems => elems
  | large bits => bits.toList

/-- Is `a` an element? -/
def contains (s : AdaptiveSet α) (a : α) : Bool :=
  match s with
  | small elems => elems.contains a
  | large bits => bits.contains a

/-- Adds elements one after the other to a bit set; the flag tells whether one was new. -/
def insertAll (bits : BitSet α) (elems : List α) : BitSet α × Bool :=
  elems.foldl (fun (b, grown) a => let (b', new) := b.insert a; (b', grown || new)) (bits, false)

/-- The elements of a list as bits. -/
def toBits (elems : List α) : BitSet α := (insertAll .empty elems).1

/-- Adds an element; the flag tells whether it is new.  A full small set becomes large. -/
def insert (s : AdaptiveSet α) (a : α) : AdaptiveSet α × Bool :=
  match s with
  | small elems =>
    if elems.contains a then (s, false)
    else if elems.length < smallCapacity then (small (elems ++ [a]), true)
    else
      let (bits, new) := (toBits elems).insert a
      (large bits, new)
  | large bits =>
    let (bits, new) := bits.insert a
    (large bits, new)

/-- The set of a list's elements, added in order. -/
def ofList (elems : List α) : AdaptiveSet α :=
  elems.foldl (fun s a => (s.insert a).1) empty

/-- The union, and whether it is larger than `s`. -/
def union (s t : AdaptiveSet α) : AdaptiveSet α × Bool :=
  match s, t with
  | large bits, large other =>
    let (bits, grown) := bits.union other
    (large bits, grown)
  | large bits, small other =>
    let (bits, grown) := insertAll bits other
    (large bits, grown)
  | small elems, large other =>
    let (bits, grown) := (toBits elems).union other
    (large bits, grown)
  | small _, small other =>
    other.foldl (fun (s, grown) a => let (s', new) := s.insert a; (s', grown || new)) (s, false)

/-- Adds an element, provided that every element which becomes a bit can be stored. -/
def insert? (s : AdaptiveSet α) (a : α) : Option (AdaptiveSet α × Bool) :=
  let fits := match s with
    | small elems =>
      elems.contains a || elems.length < smallCapacity || (elems ++ [a]).all BitSet.storable
    | large _ => BitSet.storable a
  if fits then some (s.insert a) else none

/-- The union, provided that every element which becomes a bit can be stored. -/
def union? (s t : AdaptiveSet α) : Option (AdaptiveSet α × Bool) :=
  match s, t with
  | large _, large _ => some (s.union t)
  | large _, small other => if other.all BitSet.storable then some (s.union t) else none
  | small elems, large _ => if elems.all BitSet.storable then some (s.union t) else none
  | small _, small other =>
    other.foldlM (fun (s, grown) a => do
      let (s', new) ← s.insert? a
      some (s', grown || new)) (s, false)

/-- Does `s` hold every element of `t`? -/
def superset (s t : AdaptiveSet α) : Bool :=
  match s, t with
  | large bits, large other => bits.superset other
  | _, _ => t.toList.all s.contains

/-- Do `s` and `t` share an element? -/
def intersects (s t : AdaptiveSet α) : Bool :=
  match s, t with
  | large bits, large other => bits.intersects other
  | large _, small other => other.any s.contains
  | small elems, _ => elems.any t.contains

/-- Two sets are equal when they have the same elements, in whichever form and order. -/
instance : BEq (AdaptiveSet α) := ⟨fun s t => s.count == t.count && s.superset t⟩

end AdaptiveSet

end MayAlias
