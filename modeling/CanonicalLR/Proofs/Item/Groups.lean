import CanonicalLR.Automaton
import Mathlib.Data.List.Dedup
import Mathlib.Data.List.Induction
import Mathlib.Tactic.TFAE

/-!
# Items in groups

A set of items can be kept in groups, one for each nonterminal, so that the items of a nonterminal are found at once. Each group is in order, and so are the names of the groups. Since items compare by the names of their productions before anything else, the groups one after the other are all items in order (`pairwise_items`), which makes of them the same list as the set that is not grouped has (`items_fill`). So it does not matter in which order items come, nor how often, and sets are equal by their items, by their keys or ungrouped when the same items have been given to them (`groups_of_written`).
-/

namespace CanonicalLR

open Std

theorem Item.compare_of_name {i j : Item} (h : compare i.production.name j.production.name = .lt) :
    compare i j = .lt := by
  have hproduction : compare i.production j.production = .lt := by
    rw [Production.compare_eq_compareLex, compareLex, compareOn, h]
    rfl
  show (compare i.production j.production).then _ = .lt
  rw [hproduction]
  rfl

/-- Items under the names of their productions. -/
structure ItemGroups where
  byName : TreeMap NonTerminal ItemSet

namespace ItemGroups

def empty : ItemGroups := ⟨∅⟩

/-- The items under a name, of which there may be none. -/
def group (s : ItemGroups) (n : NonTerminal) : ItemSet := s.byName.getD n .empty

/-- The groups with the item, and whether it is new to them. -/
def add (s : ItemGroups) (i : Item) : ItemGroups × Bool :=
  let added := (s.group i.production.name).add i
  (⟨s.byName.insert i.production.name added.1⟩, added.2)

def fill (written : List Item) : ItemGroups := written.foldl (fun s i => (s.add i).1) empty

/-- All items, group by group. -/
def items (s : ItemGroups) : List Item := s.byName.toList.flatMap fun (_, group) => group.toList

def itemsOf (s : ItemGroups) (n : NonTerminal) : List Item := (s.group n).toList

def size (s : ItemGroups) : Nat := s.byName.toList.foldr (fun (_, group) count => group.size + count) 0

/-- The items put into a set that has no groups. -/
def key (s : ItemGroups) : SortedSet Item := .ofList s.items

/-- Groups are compared by their items. -/
instance : BEq ItemGroups := ⟨fun s t => s.items == t.items⟩

variable {s : ItemGroups} {written : List Item} {i : Item} {n : NonTerminal}

theorem size_eq (s : ItemGroups) : s.size = s.items.length := by
  rw [size, items]
  induction s.byName.toList with
  | nil => rfl
  | cons entry rest ih =>
    rw [List.foldr_cons, ih, List.flatMap_cons, List.length_append]
    rfl

theorem beq_iff (s t : ItemGroups) : (s == t) = true ↔ s.items = t.items :=
  beq_iff_eq (α := List Item)

theorem group_empty (n : NonTerminal) : empty.group n = .empty := TreeMap.getD_emptyc

theorem group_add (s : ItemGroups) (i : Item) (n : NonTerminal) :
    (s.add i).1.group n = if n = i.production.name then (s.group n).insert i else s.group n := by
  show (s.byName.insert i.production.name ((s.group i.production.name).insert i)).getD n .empty = _
  rw [TreeMap.getD_insert]
  by_cases hn : n = i.production.name
  · subst hn
    rw [if_pos ReflCmp.compare_self, if_pos rfl]
  · rw [if_neg fun heq => hn (LawfulEqCmp.eq_of_compare heq).symm, if_neg hn]
    rfl

/-! ### Items that have been written -/

theorem fill_concat (written : List Item) (i : Item) : fill (written ++ [i]) = ((fill written).add i).1 :=
  List.foldl_concat ..

theorem mem_group_fill : i ∈ (fill written).group n ↔ i ∈ written ∧ i.production.name = n := by
  induction written using List.reverseRecOn with
  | nil => simp [fill, group_empty]
  | append_singleton written j ih =>
    rw [fill_concat, group_add, List.mem_append, List.mem_singleton]
    split
    · rename_i hn
      rw [SortedSet.mem_insert, ih]
      constructor
      · rintro (rfl | ⟨hi, hname⟩)
        · exact ⟨.inr rfl, hn.symm⟩
        · exact ⟨.inl hi, hname⟩
      · rintro ⟨hi | rfl, hname⟩
        · exact .inr ⟨hi, hname⟩
        · exact .inl rfl
    · rename_i hn
      rw [ih]
      refine ⟨fun h => ⟨.inl h.1, h.2⟩, fun h => ⟨h.1.resolve_right ?_, h.2⟩⟩
      rintro rfl
      exact hn h.2.symm

theorem mem_byName_iff {g : ItemSet} : (n, g) ∈ s.byName.toList ↔ s.byName[n]? = some g :=
  TreeMap.mem_toList_iff_getElem?_eq_some

theorem group_of_getElem? {g : ItemSet} (h : s.byName[n]? = some g) : s.group n = g := by
  rw [group, TreeMap.getD_eq_getD_getElem?, h, Option.getD_some]

theorem mem_items : i ∈ s.items ↔ ∃ n, i ∈ s.group n := by
  rw [items, List.mem_flatMap]
  constructor
  · rintro ⟨⟨n, g⟩, hg, hi⟩
    exact ⟨n, (group_of_getElem? (mem_byName_iff.1 hg)).symm ▸ hi⟩
  · rintro ⟨n, hi⟩
    cases hg : s.byName[n]? with
    | some g => exact ⟨(n, g), mem_byName_iff.2 hg, group_of_getElem? hg ▸ hi⟩
    | none =>
      rw [group, TreeMap.getD_eq_getD_getElem?, hg, Option.getD_none] at hi
      exact absurd hi (SortedSet.not_mem_empty i)

theorem mem_items_fill : i ∈ (fill written).items ↔ i ∈ written := by
  simp only [mem_items, mem_group_fill, exists_and_left, exists_eq', and_true]

/-- The groups follow in order where no item is in a wrong one. -/
theorem pairwise_items (h : ∀ n, ∀ i ∈ s.group n, i.production.name = n) :
    s.items.Pairwise fun i j => compare i j = .lt := by
  have hname {n : NonTerminal} {g : ItemSet} (hg : (n, g) ∈ s.byName.toList) {i : Item} (hi : i ∈ g.toList) :
      i.production.name = n := h n i ((group_of_getElem? (mem_byName_iff.1 hg)).symm ▸ hi)
  refine List.pairwise_flatMap.2 ⟨fun (_, g) _ => g.sorted, ?_⟩
  refine TreeMap.ordered_keys_toList.imp_of_mem ?_
  intro (m, g) (n, g') hg hg' hlt i hi j hj
  exact Item.compare_of_name (by rwa [hname hg hi, hname hg' hj])

theorem pairwise_items_fill (written : List Item) : (fill written).items.Pairwise fun i j => compare i j = .lt :=
  pairwise_items fun _ _ hi => (mem_group_fill.1 hi).2

theorem items_fill (written : List Item) :
    (fill written).items = (written.foldl .insert .empty : ItemSet).toList := by
  refine SortedSet.eq_of_sorted_of_mem_iff (pairwise_items_fill written) (SortedSet.sorted _) fun i => ?_
  rw [mem_items_fill, ← SortedSet.mem_def, SortedSet.mem_foldl_insert]
  simp

theorem itemsOf_fill (written : List Item) (n : NonTerminal) :
    (fill written).itemsOf n = (fill written).items.filter (·.production.name == n) := by
  refine SortedSet.eq_of_sorted_of_mem_iff (SortedSet.sorted _) ((pairwise_items_fill written).filter _) fun i => ?_
  rw [itemsOf, ← SortedSet.mem_def, mem_group_fill, List.mem_filter, mem_items_fill, beq_iff_eq]

theorem add_fill (written : List Item) (i : Item) : ((fill written).add i).2 = true ↔ i ∉ written := by
  show (((fill written).group i.production.name).add i).2 = true ↔ _
  rw [SortedSet.add_snd, mem_group_fill, and_iff_left rfl]

theorem size_fill (written : List Item) : (fill written).size = written.dedup.length := by
  have hnodup : (fill written).items.Nodup := by
    rw [items_fill]
    exact SortedSet.nodup_toList _
  rw [size_eq]
  refine ((List.perm_ext_iff_of_nodup hnodup written.nodup_dedup).2 fun i => ?_).length_eq
  rw [mem_items_fill, List.mem_dedup]

theorem items_fill_eq_iff {written written' : List Item} :
    (fill written).items = (fill written').items ↔ ∀ i, i ∈ written ↔ i ∈ written' := by
  constructor
  · intro h i
    rw [← mem_items_fill, h, mem_items_fill]
  · intro h
    refine SortedSet.eq_of_sorted_of_mem_iff (pairwise_items_fill _) (pairwise_items_fill _) fun i => ?_
    rw [mem_items_fill, mem_items_fill, h]

theorem key_toList (written : List Item) : (fill written).key.toList = (fill written).items := by
  refine SortedSet.eq_of_sorted_of_mem_iff (SortedSet.sorted _) (pairwise_items_fill written) fun i => ?_
  rw [← SortedSet.mem_def, key, SortedSet.mem_ofList]

/-- Whatever items are written to groups, in whatever order, the groups list the different ones of them in order, just
as the set without groups does. An item is new to both when it has not been written, both are as large as there are
different items, and both give for a name the part of the items whose productions have it. Two such sets are equal when
the same items have been written to them, and so are their keys. -/
theorem groups_of_written (written : List Item) :
    let grouped := fill written
    let set : ItemSet := written.foldl .insert .empty
    (grouped.items = set.toList ∧ grouped.items.Pairwise (fun i j => compare i j = .lt)
      ∧ ∀ i, i ∈ grouped.items ↔ i ∈ written) ∧
    (∀ i, ((grouped.add i).2 = true ↔ i ∉ written) ∧ (set.add i).2 = (grouped.add i).2) ∧
    (grouped.size = written.dedup.length ∧ set.size = grouped.size) ∧
    (∀ n, grouped.itemsOf n = grouped.items.filter (·.production.name == n) ∧ set.itemsOf n = grouped.itemsOf n) ∧
    ∀ written', [(grouped == fill written') = true, grouped.key = (fill written').key,
      set = written'.foldl .insert .empty, set.key = ItemSet.key (written'.foldl .insert .empty),
      ∀ i, i ∈ written ↔ i ∈ written'].TFAE := by
  intro grouped set
  have hitems : grouped.items = set.toList := items_fill written
  have hmem (i : Item) : i ∈ set ↔ i ∈ written := by rw [SortedSet.mem_def, ← hitems, mem_items_fill]
  refine ⟨⟨hitems, pairwise_items_fill written, fun i => mem_items_fill⟩, fun i => ⟨add_fill written i, ?_⟩,
    ⟨size_fill written, ?_⟩, fun n => ⟨itemsOf_fill written n, ?_⟩, fun written' => ?_⟩
  · rw [Bool.eq_iff_iff, SortedSet.add_snd, hmem, add_fill]
  · rw [size_eq, hitems, SortedSet.size]
  · rw [itemsOf_fill, hitems, ItemSet.itemsOf]
  · tfae_have 1 ↔ 5 := by rw [beq_iff, items_fill_eq_iff]
    tfae_have 2 ↔ 5 := by
      rw [← items_fill_eq_iff, ← key_toList written, ← key_toList written']
      exact ⟨congrArg SortedSet.toList, SortedSet.toList_injective⟩
    tfae_have 3 ↔ 4 := ⟨congrArg ItemSet.key, SortedSet.toList_injective⟩
    tfae_have 4 ↔ 5 := by
      rw [← items_fill_eq_iff, items_fill, items_fill]
      exact Iff.rfl
    tfae_finish

end ItemGroups

end CanonicalLR
