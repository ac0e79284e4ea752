import MayAlias.DenseIndex
import MayAlias.FinMap

/-!
# Allocation sites

Every allocation site of a procedure has a label.  All objects created at one site are represented
by one abstract object, and a `SiteTable` numbers the abstract objects in the order in which the
labels first occur.
-/

namespace MayAlias

/-- The abstract object that stands for every object created at one allocation site.  It has a
meaning only together with the table that numbered it. -/
structure ObjectId where
  val : UInt32
deriving DecidableEq

namespace ObjectId

/-- The object with a given number; numbers are 32 bits wide. -/
def ofNat (n : Nat) : ObjectId := ⟨UInt32.ofNat n⟩

/-- The object's number. -/
def toNat (o : ObjectId) : Nat := o.val.toNat

/-- The order of the numbers. -/
def le (o p : ObjectId) : Bool := o.toNat ≤ p.toNat

/-- How an object prints when its site is not known. -/
def inspect (o : ObjectId) : String := "NodeId(" ++ toString o.toNat ++ ")"

instance : DenseIndex ObjectId where
  index o := DenseIndex.index o.val
  ofIndex? i := (DenseIndex.ofIndex? i).map ObjectId.mk
  ofIndex?_index o := by rw [DenseIndex.ofIndex?_index]; rfl
  index_of_ofIndex? i o h := by
    obtain ⟨v, hv, rfl⟩ := Option.map_eq_some_iff.1 h
    exact DenseIndex.index_of_ofIndex? i v hv

end ObjectId

/-- The sites met so far, in two structures that look labels and objects up: a list that has at each
place the label of the object with that number, and a map from the labels to their objects. -/
structure SiteTable where
  /-- The labels in the order in which they were first met. -/
  labels : List String
  /-- The objects of the labels. -/
  objects : FinMap String ObjectId
deriving DecidableEq

namespace SiteTable

/-- The table without sites. -/
def empty : SiteTable := ⟨[], .empty⟩

/-- The number of sites. -/
def size (t : SiteTable) : Nat := t.labels.length

/-- Has the table no sites? -/
def isEmpty (t : SiteTable) : Bool := t.labels.isEmpty

/-- The object of a label that is in the table, read from the map. -/
def find? (t : SiteTable) (label : String) : Option ObjectId := t.objects.get? label

/-- The label of an object that the table numbered, read from the list. -/
def label? (t : SiteTable) (o : ObjectId) : Option String := t.labels[o.toNat]?

/-- The object of a label.  On first use the label is appended to the list, and its place there is
written into the map as the number of its object. -/
def intern (t : SiteTable) (label : String) : ObjectId × SiteTable :=
  match t.find? label with
  | some o => (o, t)
  | none =>
    let o := ObjectId.ofNat t.size
    (o, ⟨t.labels ++ [label], t.objects.insert label o⟩)

/-- An object as its label in parentheses, or as its number when the table does not know it. -/
def render (t : SiteTable) (o : ObjectId) : String :=
  match t.label? o with
  | some label => "(" ++ label ++ ")"
  | none => o.inspect

end SiteTable

end MayAlias
