import Std.Data.TreeMap.Lemmas

/-!
# Positions of keys

An index of a list of keys, which tells for each key where it stands. Main statement: in a list
without repeats a key is found exactly where it is (`getElem?_positions`).
-/

namespace CanonicalLR

open Std

universe u

variable {κ : Type u} [Ord κ]

/-- Where each of the keys stands. -/
def positions (keys : List κ) : TreeMap κ Nat :=
  keys.zipIdx.foldl (fun index (k, place) => index.insert k place) ∅

theorem positions_concat (keys : List κ) (k : κ) :
    positions (keys ++ [k]) = (positions keys).insert k keys.length := by
  simp [positions, List.zipIdx_append]

variable [TransOrd κ] [LawfulEqOrd κ]

theorem getElem?_positions {keys : List κ} (h : keys.Nodup) {k : κ} {place : Nat} :
    (positions keys)[k]? = some place ↔ keys[place]? = some k := by
  suffices ∀ l : List κ, l.reverse.Nodup →
      ((positions l.reverse)[k]? = some place ↔ l.reverse[place]? = some k) by
    simpa using this keys.reverse (by simpa using h)
  intro l
  induction l with
  | nil => simp [positions]
  | cons x rest ih =>
    intro h
    rw [List.reverse_cons] at h ⊢
    obtain ⟨hrest, -, hnew⟩ := List.nodup_append.1 h
    rw [positions_concat, TreeMap.getElem?_insert]
    have hlength : rest.reverse[rest.reverse.length]? = none := List.getElem?_eq_none (Nat.le_refl _)
    split
    · rename_i heq
      obtain rfl := LawfulEqCmp.eq_of_compare heq
      constructor
      · intro hplace
        obtain rfl := Option.some.inj hplace
        simp
      · intro hplace
        by_cases hlt : place < rest.reverse.length
        · rw [List.getElem?_append_left hlt] at hplace
          exact absurd rfl (hnew x (List.mem_of_getElem? hplace) x (List.mem_singleton_self x))
        · have := (List.getElem?_eq_some_iff.1 hplace).1
          rw [List.length_append, List.length_singleton] at this
          congr 1
          omega
    · rename_i hne
      rw [ih hrest]
      by_cases hlt : place < rest.reverse.length
      · rw [List.getElem?_append_left hlt]
      · rw [List.getElem?_append_right (by omega), List.getElem?_eq_none (by omega)]
        simp only [reduceCtorEq, false_iff]
        intro hplace
        obtain rfl := List.mem_singleton.1 (List.mem_of_getElem? hplace)
        exact hne ReflCmp.compare_self

theorem positions_eq_none_iff {keys : List κ} (h : keys.Nodup) {k : κ} :
    (positions keys)[k]? = none ↔ k ∉ keys := by
  rw [Option.eq_none_iff_forall_ne_some]
  simp only [ne_eq, getElem?_positions h, List.mem_iff_getElem?, not_exists]

end CanonicalLR
