/-!
# Finite maps

A finite map is a list of entries, oldest key first, no key twice.  Writing a key that is present
replaces its value in place.  Two maps that agree on every key may list their entries in different
orders, so maps are compared by looking the keys up.
-/

namespace MayAlias

/-- Entries with distinct keys. -/
structure FinMap (κ ν : Type) where
  /-- The entries in the order in which their keys were first written. -/
  entries : List (κ × ν)
  /-- No key is listed twice. -/
  nodup_keys : (entries.map Prod.fst).Nodup
deriving DecidableEq

namespace FinMap

variable {κ ν : Type}

/-- The map without entries. -/
def empty : FinMap κ ν := ⟨[], List.nodup_nil⟩

/-- The number of keys. -/
def size (m : FinMap κ ν) : Nat := m.entries.length

/-- Has the map no keys? -/
def isEmpty (m : FinMap κ ν) : Bool := m.entries.isEmpty

/-- The keys, oldest first. -/
def keys (m : FinMap κ ν) : List κ := m.entries.map Prod.fst

variable [DecidableEq κ]

/-- The value under the first entry for `k`. -/
def find? (k : κ) : List (κ × ν) → Option ν
  | [] => none
  | (k', v) :: rest => if k' = k then some v else find? k rest

/-- Replaces the value under `k`, or appends a new entry. -/
def write (k : κ) (v : ν) : List (κ × ν) → List (κ × ν)
  | [] => [(k, v)]
  | (k', v') :: rest => if k' = k then (k, v) :: rest else (k', v') :: write k v rest

theorem keys_write (k : κ) (v : ν) (l : List (κ × ν)) :
    (write k v l).map Prod.fst =
      if k ∈ l.map Prod.fst then l.map Prod.fst else l.map Prod.fst ++ [k] := by
  induction l with
  | nil => simp [write]
  | cons e rest ih =>
    obtain ⟨k', v'⟩ := e
    by_cases hk : k' = k
    · simp [write, hk]
    · have hk' : ¬ k = k' := fun h => hk h.symm
      simp only [write, hk, if_false, List.map_cons, ih, List.mem_cons, hk', false_or]
      split <;> simp

theorem nodup_keys_write (k : κ) (v : ν) {l : List (κ × ν)} (h : (l.map Prod.fst).Nodup) :
    ((write k v l).map Prod.fst).Nodup := by
  rw [keys_write]
  split
  · exact h
  · rename_i hk
    rw [List.nodup_append]
    refine ⟨h, by simp, fun a ha b hb => ?_⟩
    rw [List.mem_singleton.1 hb]
    exact fun heq => hk (heq ▸ ha)

/-- The value under `k`, if `k` is a key. -/
def get? (m : FinMap κ ν) (k : κ) : Option ν := find? k m.entries

/-- The map with `v` under `k`. -/
def insert (m : FinMap κ ν) (k : κ) (v : ν) : FinMap κ ν :=
  ⟨write k v m.entries, nodup_keys_write k v m.nodup_keys⟩

/-- Have two maps the same keys, with values that `eq` accepts? -/
def agrees (eq : ν → ν → Bool) (m m' : FinMap κ ν) : Bool :=
  m.size == m'.size &&
    m.entries.all fun (k, v) => match m'.get? k with
      | some v' => eq v v'
      | none => false

/-! ## Looking up -/

theorem find?_write_self (k : κ) (v : ν) (l : List (κ × ν)) : find? k (write k v l) = some v := by
  induction l with
  | nil => simp [write, find?]
  | cons e rest ih =>
    obtain ⟨k', v'⟩ := e
    by_cases hk : k' = k <;> simp [write, find?, hk, ih]

theorem find?_write_of_ne {k j : κ} (h : j ≠ k) (v : ν) (l : List (κ × ν)) :
    find? j (write k v l) = find? j l := by
  induction l with
  | nil => simp [write, find?, Ne.symm h]
  | cons e rest ih =>
    obtain ⟨k', v'⟩ := e
    by_cases hk : k' = k
    · subst hk
      simp [write, find?, Ne.symm h]
    · simp [write, find?, hk, ih]

@[simp] theorem get?_empty (k : κ) : (empty : FinMap κ ν).get? k = none := rfl

@[simp] theorem get?_insert_self (m : FinMap κ ν) (k : κ) (v : ν) :
    (m.insert k v).get? k = some v := find?_write_self k v m.entries

theorem get?_insert_of_ne (m : FinMap κ ν) {k j : κ} (h : j ≠ k) (v : ν) :
    (m.insert k v).get? j = m.get? j := find?_write_of_ne h v m.entries

theorem get?_insert (m : FinMap κ ν) (k j : κ) (v : ν) :
    (m.insert k v).get? j = if j = k then some v else m.get? j := by
  split
  · rename_i h
    rw [h, get?_insert_self]
  · rename_i h
    exact get?_insert_of_ne m h v

end FinMap

end MayAlias
