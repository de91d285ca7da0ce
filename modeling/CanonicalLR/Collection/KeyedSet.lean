import CanonicalLR.Collection.Positions
import CanonicalLR.Text.Quoted

/-!
# Sets told apart by a key

Values in the order in which they first came, one for each key. Adding a value whose key is taken
changes nothing and replacing writes it to the place of the value with its key, so a key never moves.
The values come with an index of their keys, which is determined by them, so sets are equal when
their lists of values are (`ext_toList`).
-/

namespace CanonicalLR

open Std

universe u v

structure KeyedSet {α : Type u} {κ : Type v} [Ord κ] (key : α → κ) where
  values : Array α
  index : TreeMap κ Nat
  index_eq : index = positions (values.toList.map key)
  nodup : (values.toList.map key).Nodup

namespace KeyedSet

variable {α : Type u} {κ : Type v} [Ord κ] {key : α → κ}

def empty : KeyedSet key := ⟨#[], ∅, rfl, .nil⟩

/-- The values in the order of their keys' first coming. -/
def toList (s : KeyedSet key) : List α := s.values.toList

def size (s : KeyedSet key) : Nat := s.values.size

def isEmpty (s : KeyedSet key) : Bool := s.values.isEmpty

def get? (s : KeyedSet key) (place : Nat) : Option α := s.values[place]?

/-- The values in brackets, each as `text` shows it. -/
def inspect (text : α → String) (s : KeyedSet key) : String := Text.bracket (s.toList.map text)

/-- The position of the value that holds a key. -/
def positionOf? (s : KeyedSet key) (k : κ) : Option Nat := s.index[k]?

def indexOf? (s : KeyedSet key) (x : α) : Option Nat := s.positionOf? (key x)

def contains (s : KeyedSet key) (x : α) : Bool := (s.indexOf? x).isSome

def withKey? (s : KeyedSet key) (k : κ) : Option α := (s.positionOf? k).bind s.get?

theorem get?_eq (s : KeyedSet key) (place : Nat) : s.get? place = s.toList[place]? := by
  simp [get?, toList]

theorem size_eq (s : KeyedSet key) : s.size = s.toList.length := rfl

theorem ext_toList {s t : KeyedSet key} (h : s.toList = t.toList) : s = t := by
  obtain ⟨values, index, hindex, _⟩ := s
  obtain ⟨values', index', hindex', _⟩ := t
  obtain rfl : values = values' := Array.toList_inj.1 h
  subst hindex hindex'
  rfl

variable [TransOrd κ] [LawfulEqOrd κ]

theorem positionOf?_eq_some_iff {s : KeyedSet key} {k : κ} {place : Nat} :
    s.positionOf? k = some place ↔ (s.toList.map key)[place]? = some k := by
  rw [positionOf?, s.index_eq, getElem?_positions s.nodup, toList]

theorem positionOf?_eq_none_iff {s : KeyedSet key} {k : κ} :
    s.positionOf? k = none ↔ k ∉ s.toList.map key := by
  rw [positionOf?, s.index_eq, positions_eq_none_iff s.nodup, toList]

/-- The set with `x` at the end, where no value has the key of `x`. -/
def push (s : KeyedSet key) (x : α) (h : s.positionOf? (key x) = none) : KeyedSet key :=
  ⟨s.values.push x, s.index.insert (key x) s.values.size,
    by rw [Array.toList_push, List.map_append, List.map_singleton, positions_concat, ← s.index_eq]; simp,
    by
      rw [Array.toList_push, List.map_append, List.nodup_append]
      refine ⟨s.nodup, by simp, ?_⟩
      intro a ha b hb hab
      simp only [List.map_cons, List.map_nil, List.mem_singleton] at hb
      exact positionOf?_eq_none_iff.1 h (hb ▸ hab ▸ ha)⟩

/-- The set with `x`, the position of the value with the key of `x`, and whether that is `x` itself,
newly added. -/
def add (s : KeyedSet key) (x : α) : KeyedSet key × Nat × Bool :=
  match h : s.positionOf? (key x) with
  | some place => (s, place, false)
  | none => (s.push x h, s.size, true)

def insert (s : KeyedSet key) (x : α) : KeyedSet key := (s.add x).1

def insertAll (s : KeyedSet key) (values : List α) : KeyedSet key := values.foldl insert s

def ofList (values : List α) : KeyedSet key := empty.insertAll values

theorem map_set_of_positionOf? {s : KeyedSet key} {x : α} {place : Nat}
    (h : s.positionOf? (key x) = some place) : (s.toList.set place x).map key = s.toList.map key := by
  have hplace := positionOf?_eq_some_iff.1 h
  rw [List.map_set]
  apply List.ext_getElem?
  intro j
  rw [List.getElem?_set]
  split
  · rename_i heq
    subst heq
    rw [if_pos (List.getElem?_eq_some_iff.1 hplace).1, hplace]
  · rfl

/-- The set with `x` in the place of the value with the key of `x`, or at the end. -/
def replace (s : KeyedSet key) (x : α) : KeyedSet key :=
  match h : s.positionOf? (key x) with
  | some place => ⟨s.values.setIfInBounds place x, s.index,
      by
        rw [Array.toList_setIfInBounds, s.index_eq]
        exact congrArg positions (map_set_of_positionOf? h).symm,
      by
        rw [Array.toList_setIfInBounds]
        exact (map_set_of_positionOf? h).symm ▸ s.nodup⟩
  | none => s.push x h

/-! ### What adding does -/

omit [TransOrd κ] [LawfulEqOrd κ] in
@[simp] theorem toList_empty : (empty : KeyedSet key).toList = [] := rfl

@[simp] theorem toList_push (s : KeyedSet key) (x : α) (h : s.positionOf? (key x) = none) :
    (s.push x h).toList = s.toList ++ [x] := Array.toList_push

theorem add_of_positionOf? {s : KeyedSet key} {x : α} {place : Nat} (h : s.positionOf? (key x) = some place) :
    s.add x = (s, place, false) := by
  rw [add]
  split
  · rename_i other hother
    rw [Option.some.inj (hother.symm.trans h)]
  · rename_i hnone
    cases hnone.symm.trans h

theorem add_of_positionOf?_none {s : KeyedSet key} {x : α} (h : s.positionOf? (key x) = none) :
    s.add x = (s.push x h, s.size, true) := by
  rw [add]
  split
  · rename_i hsome
    cases hsome.symm.trans h
  · rfl

theorem insert_of_mem {s : KeyedSet key} {x : α} (h : key x ∈ s.toList.map key) :
    s.insert x = s := by
  rw [insert, add]
  split
  · rfl
  · rename_i hnone
    exact absurd h (positionOf?_eq_none_iff.1 hnone)

theorem toList_insert_of_not_mem {s : KeyedSet key} {x : α} (h : key x ∉ s.toList.map key) :
    (s.insert x).toList = s.toList ++ [x] := by
  rw [insert, add]
  split
  · rename_i place hsome
    exact absurd (List.mem_of_getElem? (positionOf?_eq_some_iff.1 hsome)) h
  · rename_i hnone
    exact toList_push s x hnone

theorem insertAll_append (s : KeyedSet key) (xs ys : List α) :
    s.insertAll (xs ++ ys) = (s.insertAll xs).insertAll ys := List.foldl_append

theorem insertAll_cons (s : KeyedSet key) (x : α) (rest : List α) :
    s.insertAll (x :: rest) = (s.insert x).insertAll rest := rfl

theorem insertAll_of_mem {s : KeyedSet key} {xs : List α} (h : ∀ x ∈ xs, key x ∈ s.toList.map key) :
    s.insertAll xs = s := by
  induction xs with
  | nil => rfl
  | cons x rest ih =>
    rw [insertAll_cons, insert_of_mem (h x List.mem_cons_self)]
    exact ih fun y hy => h y (List.mem_cons_of_mem _ hy)

/-- Adding only puts values behind those that are there. -/
theorem toList_insertAll_extends (s : KeyedSet key) (xs : List α) :
    ∃ added, (s.insertAll xs).toList = s.toList ++ added ∧ ∀ x ∈ added, x ∈ xs := by
  induction xs generalizing s with
  | nil => exact ⟨[], (List.append_nil _).symm, by simp⟩
  | cons x rest ih =>
    obtain ⟨added, hadded, hmem⟩ := ih (s.insert x)
    by_cases h : key x ∈ s.toList.map key
    · rw [insert_of_mem h] at hadded
      exact ⟨added, by rw [insertAll_cons, insert_of_mem h, hadded],
        fun y hy => List.mem_cons_of_mem _ (hmem y hy)⟩
    · refine ⟨x :: added, by rw [insertAll_cons, hadded, toList_insert_of_not_mem h]; simp, ?_⟩
      intro y hy
      rcases List.mem_cons.1 hy with rfl | hy
      · exact List.mem_cons_self
      · exact List.mem_cons_of_mem _ (hmem y hy)

theorem toList_insertAll_of_nodup (s : KeyedSet key) (values : List α)
    (h : ((s.toList ++ values).map key).Nodup) : (s.insertAll values).toList = s.toList ++ values := by
  induction values generalizing s with
  | nil => simp [insertAll]
  | cons x rest ih =>
    have hfresh : key x ∉ s.toList.map key := by
      rw [List.map_append, List.nodup_append] at h
      intro hmem
      exact h.2.2 _ hmem _ (List.mem_map_of_mem List.mem_cons_self) rfl
    have hstep := toList_insert_of_not_mem hfresh
    rw [insertAll_cons, ih (s.insert x) (by simpa [hstep] using h), hstep]
    simp

theorem toList_ofList {values : List α} (h : (values.map key).Nodup) :
    (ofList values : KeyedSet key).toList = values :=
  toList_insertAll_of_nodup empty values (by simpa using h)

/-! ### What replacing does -/

theorem mem_replace {s : KeyedSet key} {x y : α} :
    y ∈ (s.replace x).toList ↔ y = x ∨ y ∈ s.toList ∧ key y ≠ key x := by
  rw [replace]
  split
  · rename_i place h
    have hplace := positionOf?_eq_some_iff.1 h
    have hlt : place < s.toList.length := by
      simpa using (List.getElem?_eq_some_iff.1 hplace).1
    have hset : ∀ j, (s.toList.set place x)[j]? = some y ↔
        (j = place ∧ y = x) ∨ (j ≠ place ∧ s.toList[j]? = some y) := by
      intro j
      rw [List.getElem?_set]
      by_cases hj : place = j
      · subst hj
        simp [hlt, eq_comm]
      · simp [hj, Ne.symm hj]
    have hkeys : ∀ j, s.toList[j]? = some y → (j ≠ place ↔ key y ≠ key x) := by
      intro j hj
      have hjkey : (s.toList.map key)[j]? = some (key y) := by rw [List.getElem?_map, hj]; rfl
      refine not_congr ⟨fun heq => ?_, fun heq => ?_⟩
      · subst heq
        exact Option.some.inj (hjkey.symm.trans hplace)
      · rw [heq] at hjkey
        exact (List.getElem?_inj (List.getElem?_eq_some_iff.1 hjkey).1 s.nodup).1 (hjkey.trans hplace.symm)
    have hlist : y ∈ (s.toList.set place x) ↔ y = x ∨ y ∈ s.toList ∧ key y ≠ key x := by
      simp only [List.mem_iff_getElem?, hset]
      constructor
      · rintro ⟨j, ⟨-, rfl⟩ | ⟨hne, hj⟩⟩
        · exact .inl rfl
        · exact .inr ⟨⟨j, hj⟩, (hkeys j hj).1 hne⟩
      · rintro (rfl | ⟨⟨j, hj⟩, hne⟩)
        · exact ⟨place, .inl ⟨rfl, rfl⟩⟩
        · exact ⟨j, .inr ⟨(hkeys j hj).2 hne, hj⟩⟩
    simpa [toList] using hlist
  · rename_i h
    rw [toList_push, List.mem_append, List.mem_singleton]
    constructor
    · rintro (hy | rfl)
      · refine .inr ⟨hy, fun heq => ?_⟩
        exact positionOf?_eq_none_iff.1 h (heq ▸ List.mem_map_of_mem hy)
      · exact .inl rfl
    · rintro (rfl | ⟨hy, -⟩)
      · exact .inr rfl
      · exact .inl hy

theorem map_key_replace [DecidableEq κ] (s : KeyedSet key) (x : α) : (s.replace x).toList.map key
    = if key x ∈ s.toList.map key then s.toList.map key else s.toList.map key ++ [key x] := by
  rw [replace]
  split
  · rename_i place h
    rw [if_pos (List.mem_of_getElem? (positionOf?_eq_some_iff.1 h)), toList, Array.toList_setIfInBounds]
    exact map_set_of_positionOf? h
  · rename_i h
    rw [if_neg (positionOf?_eq_none_iff.1 h), toList_push, List.map_append, List.map_singleton]

/-! ### Looking up -/

theorem withKey?_eq_some_iff {s : KeyedSet key} {k : κ} {x : α} :
    s.withKey? k = some x ↔ x ∈ s.toList ∧ key x = k := by
  simp only [withKey?, Option.bind_eq_some_iff, get?_eq, positionOf?_eq_some_iff, List.getElem?_map,
    Option.map_eq_some_iff]
  constructor
  · rintro ⟨place, ⟨y, hy, rfl⟩, hx⟩
    obtain rfl := Option.some.inj (hy.symm.trans hx)
    exact ⟨List.mem_of_getElem? hx, rfl⟩
  · rintro ⟨hx, rfl⟩
    obtain ⟨place, hplace⟩ := List.mem_iff_getElem?.1 hx
    exact ⟨place, ⟨x, hplace, rfl⟩, hplace⟩

theorem indexOf?_push {s : KeyedSet key} {x : α} (h : s.positionOf? (key x) = none) :
    (s.push x h).indexOf? x = some s.size := by
  rw [indexOf?, positionOf?_eq_some_iff, toList_push, List.map_append, size_eq]
  simp

theorem indexOf?_insertAll {s : KeyedSet key} {x : α} {place : Nat} (h : s.indexOf? x = some place) (xs : List α) :
    (s.insertAll xs).indexOf? x = some place := by
  obtain ⟨added, hadded, -⟩ := s.toList_insertAll_extends xs
  rw [indexOf?, positionOf?_eq_some_iff] at h ⊢
  rw [hadded, List.map_append, List.getElem?_append_left (List.getElem?_eq_some_iff.1 h).1]
  exact h

theorem get?_insertAll {s : KeyedSet key} {x : α} {place : Nat} (h : s.get? place = some x) (xs : List α) :
    (s.insertAll xs).get? place = some x := by
  obtain ⟨added, hadded, -⟩ := s.toList_insertAll_extends xs
  rw [get?_eq] at h ⊢
  rw [hadded, List.getElem?_append_left (List.getElem?_eq_some_iff.1 h).1]
  exact h

end KeyedSet

end CanonicalLR
