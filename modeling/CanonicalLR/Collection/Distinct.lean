import CanonicalLR.Collection.KeyedSet

/-!
# Lists without repeats

A set whose values are their own keys holds each value once. The values of a list go into such a set
and come out in the order in which they first stand in the list.
-/

namespace CanonicalLR

open Std

universe u

variable {α : Type u} [Ord α] [TransOrd α] [LawfulEqOrd α]

namespace KeyedSet

theorem mem_insert {s : KeyedSet (id : α → α)} {x y : α} :
    y ∈ (s.insert x).toList ↔ y = x ∨ y ∈ s.toList := by
  by_cases h : x ∈ s.toList
  · rw [insert_of_mem (by simpa using h)]
    grind
  · rw [toList_insert_of_not_mem (by simpa using h)]
    simp [or_comm]

theorem mem_insertAll {s : KeyedSet (id : α → α)} {xs : List α} {y : α} :
    y ∈ (s.insertAll xs).toList ↔ y ∈ xs ∨ y ∈ s.toList := by
  induction xs generalizing s with
  | nil => simp [insertAll]
  | cons x rest ih => rw [insertAll_cons, ih, mem_insert, List.mem_cons]; grind

omit [TransOrd α] [LawfulEqOrd α] in
theorem nodup_toList (s : KeyedSet (id : α → α)) : s.toList.Nodup := by
  simpa [toList] using s.nodup

end KeyedSet

/-- The members of a list, each where it first comes. -/
def distinct (l : List α) : List α := (KeyedSet.ofList l : KeyedSet (id : α → α)).toList

@[simp] theorem mem_distinct {l : List α} {x : α} : x ∈ distinct l ↔ x ∈ l := by
  simp [distinct, KeyedSet.ofList, KeyedSet.mem_insertAll]

theorem nodup_distinct (l : List α) : (distinct l).Nodup := KeyedSet.nodup_toList _

theorem distinct_of_nodup {l : List α} (h : l.Nodup) : distinct l = l := KeyedSet.toList_ofList (by simpa using h)

theorem distinct_concat_of_mem {l : List α} {x : α} (h : x ∈ l) : distinct (l ++ [x]) = distinct l := by
  rw [distinct, KeyedSet.ofList, KeyedSet.insertAll_append]
  exact congrArg KeyedSet.toList (KeyedSet.insert_of_mem (by
    simpa [KeyedSet.mem_insertAll] using h))

theorem distinct_concat_of_not_mem {l : List α} {x : α} (h : x ∉ l) :
    distinct (l ++ [x]) = distinct l ++ [x] := by
  rw [distinct, KeyedSet.ofList, KeyedSet.insertAll_append]
  exact KeyedSet.toList_insert_of_not_mem (by simpa [KeyedSet.mem_insertAll] using h)

/-- What is added behind a list comes behind its members. -/
theorem exists_distinct_append (l more : List α) : ∃ added, distinct (l ++ more) = distinct l ++ added := by
  obtain ⟨added, hadded, -⟩ := (KeyedSet.ofList l : KeyedSet (id : α → α)).toList_insertAll_extends more
  rw [distinct, KeyedSet.ofList, KeyedSet.insertAll_append]
  exact ⟨added, hadded⟩

theorem distinct_concat [DecidableEq α] (l : List α) (x : α) :
    distinct (l ++ [x]) = if x ∈ l then distinct l else distinct l ++ [x] := by
  split
  · exact distinct_concat_of_mem ‹_›
  · exact distinct_concat_of_not_mem ‹_›

end CanonicalLR
