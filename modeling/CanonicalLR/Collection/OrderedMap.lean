import CanonicalLR.Collection.KeyedSet

/-!
# Maps in order of insertion

A finite map stored as the set of its entries, told apart by their keys, in the order in which the keys
first came. Writing to a key that is present changes the value and keeps the place.
-/

namespace CanonicalLR

open Std

universe u v

structure OrderedMap (κ : Type u) [Ord κ] (ν : Type v) where
  cells : KeyedSet (Prod.fst : κ × ν → κ)

namespace OrderedMap

variable {κ : Type u} [Ord κ] {ν : Type v}

def empty : OrderedMap κ ν := ⟨.empty⟩

def size (m : OrderedMap κ ν) : Nat := m.cells.size

def entries (m : OrderedMap κ ν) : List (κ × ν) := m.cells.toList

def get? (m : OrderedMap κ ν) (k : κ) : Option ν := (m.cells.withKey? k).map Prod.snd

def contains (m : OrderedMap κ ν) (k : κ) : Bool := (m.get? k).isSome

variable [TransOrd κ] [LawfulEqOrd κ]

/-- The map with `v` written to the key `k`. -/
def insert (m : OrderedMap κ ν) (k : κ) (v : ν) : OrderedMap κ ν := ⟨m.cells.replace (k, v)⟩

/-- The map with one entry for each of the keys, in order. -/
def tabulate (keys : List κ) (f : κ → ν) : OrderedMap κ ν :=
  keys.foldl (fun m k => m.insert k (f k)) empty

/-- The two maps have the same keys, and related values at each of them. -/
def agrees (related : ν → ν → Bool) (a b : OrderedMap κ ν) : Bool :=
  a.size == b.size && a.entries.all fun (k, v) => (b.get? k).any (related v)

/-! ### Reading back -/

theorem get?_eq_some_iff {m : OrderedMap κ ν} {k : κ} {v : ν} :
    m.get? k = some v ↔ (k, v) ∈ m.entries := by
  simp only [get?, Option.map_eq_some_iff, KeyedSet.withKey?_eq_some_iff, entries]
  constructor
  · rintro ⟨⟨_, _⟩, ⟨hmem, rfl⟩, rfl⟩
    exact hmem
  · exact fun h => ⟨_, ⟨h, rfl⟩, rfl⟩

omit [TransOrd κ] [LawfulEqOrd κ] in
@[simp] theorem entries_empty : (empty : OrderedMap κ ν).entries = [] := rfl

@[simp] theorem get?_empty (k : κ) : (empty : OrderedMap κ ν).get? k = none := by
  rw [Option.eq_none_iff_forall_ne_some]
  intro v hv
  simpa using get?_eq_some_iff.1 hv

@[simp] theorem get?_insert [DecidableEq κ] (m : OrderedMap κ ν) (k k' : κ) (v : ν) :
    (m.insert k v).get? k' = if k' = k then some v else m.get? k' := by
  ext w
  rw [get?_eq_some_iff, entries, insert, KeyedSet.mem_replace]
  split
  · rename_i heq
    simp [heq, eq_comm]
  · rename_i hne
    simp [hne, get?_eq_some_iff, entries]

theorem get?_tabulate [DecidableEq κ] (keys : List κ) (f : κ → ν) (k : κ) :
    (tabulate keys f).get? k = if k ∈ keys then some (f k) else none := by
  suffices ∀ m : OrderedMap κ ν, (keys.foldl (fun m k => m.insert k (f k)) m).get? k
      = if k ∈ keys then some (f k) else m.get? k by
    rw [tabulate, this, get?_empty]
  induction keys with
  | nil => intro m; simp
  | cons key rest ih =>
    intro m
    rw [List.foldl_cons, ih, get?_insert]
    by_cases hk : k = key
    · simp [hk]
    · simp [hk]

theorem contains_iff {m : OrderedMap κ ν} {k : κ} : m.contains k ↔ k ∈ m.entries.map Prod.fst := by
  rw [contains, Option.isSome_iff_exists, List.mem_map]
  simp only [get?_eq_some_iff]
  constructor
  · intro h
    obtain ⟨v, hv⟩ := h
    exact ⟨(k, v), hv, rfl⟩
  · intro h
    obtain ⟨⟨_, v⟩, hv, rfl⟩ := h
    exact ⟨v, hv⟩

theorem keys_insert [DecidableEq κ] (m : OrderedMap κ ν) (k : κ) (v : ν) :
    (m.insert k v).entries.map Prod.fst = if k ∈ m.entries.map Prod.fst then m.entries.map Prod.fst
      else m.entries.map Prod.fst ++ [k] :=
  KeyedSet.map_key_replace m.cells (k, v)

end OrderedMap

end CanonicalLR
