import CanonicalLR.Item.Closure
import Mathlib.Data.List.Perm.Subperm
import Mathlib.Logic.Relation

/-!
# Closing a set of items

The closure of a set of items, without the goals by which it is searched for. An item expands to the starts of the productions of its current symbol, with the terminals that can follow that symbol for their lookaheads (`Item.Expands`), and the closure holds what chains of expansions reach from the set (`mem_closure_iff_expands`); from this come the laws of a closure operator. The same set comes about in rounds, each of which adds at once all that the items of the set expand to: a round never leaves the closure, and once it does not make the set larger the set is closed, so the rounds end (`closeInRounds_eq`). Nothing is asked of the items in the set.
-/

namespace CanonicalLR

open Relation

universe u

theorem reachable_iff_reflTransGen {α : Type u} {next : α → List α} {start : List α} {x : α} :
    Reachable next start x ↔ ∃ y ∈ start, ReflTransGen (fun y z => z ∈ next y) y x := by
  constructor
  · intro h
    induction h with
    | start hx => exact ⟨_, hx, .refl⟩
    | step _ hy ih =>
      obtain ⟨z, hz, hchain⟩ := ih
      exact ⟨z, hz, hchain.tail hy⟩
  · intro h
    obtain ⟨y, hy, hchain⟩ := h
    induction hchain with
    | refl => exact .start hy
    | tail _ hz ih => exact .step ih hz

/-! ### Expansion -/

namespace Item

/-- The terminal can follow the current symbol: it is what the next symbol can start with, or it is the lookahead of the item, where there is no next symbol or it is not known to start with anything. -/
inductive FollowedBy (first : TerminalSets) (i : Item) : Terminal → Prop where
  | terminal {t : Terminal} : i.following? = some (.terminal t) → FollowedBy first i t
  | first {n : NonTerminal} {terminals : List Terminal} {t : Terminal} : i.following? = some (.nonterminal n) →
    first.get? n = some terminals → t ∈ terminals → FollowedBy first i t
  | last : i.following? = none → FollowedBy first i i.lookahead
  | empty {n : NonTerminal} : i.following? = some (.nonterminal n) → first.get? n = some [] →
    FollowedBy first i i.lookahead
  | unknown {n : NonTerminal} : i.following? = some (.nonterminal n) → first.get? n = none →
    FollowedBy first i i.lookahead

/-- The item expects a nonterminal, of which a production starts. -/
inductive Expands (g : Grammar) (first : TerminalSets) (i : Item) : Item → Prop where
  | production {p : Production} {t : Terminal} : i.current? = some (.nonterminal p.name) → p ∈ g.productions →
    i.FollowedBy first t → Expands g first i (.initial p t)

variable {g : Grammar} {first : TerminalSets} {i j : Item}

theorem mem_expansionLookaheads_iff_followedBy {t : Terminal} :
    t ∈ i.expansionLookaheads first ↔ i.FollowedBy first t := by
  unfold expansionLookaheads
  constructor
  · intro h
    split at h
    · rename_i hnone
      exact List.mem_singleton.1 h ▸ .last hnone
    · rename_i s hs
      exact List.mem_singleton.1 h ▸ .terminal hs
    · rename_i n hn
      split at h
      · rename_i hget
        exact .first hn hget h
      · rename_i hget
        obtain rfl := List.mem_singleton.1 h
        cases hcase : first.get? n with
        | none => exact .unknown hn hcase
        | some terminals =>
          cases terminals with
          | nil => exact .empty hn hcase
          | cons s rest => exact absurd hcase (hget s rest)
  · intro h
    cases h with
    | terminal hs => simp [hs]
    | @first n terminals t hn hget hmem =>
      cases terminals with
      | nil => exact absurd hmem List.not_mem_nil
      | cons s rest => simpa [hn, hget] using hmem
    | last hnone => simp [hnone]
    | empty hn hget => simp [hn, hget]
    | unknown hn hget => simp [hn, hget]

theorem mem_expansion_iff_expands : j ∈ i.expansion g first ↔ Expands g first i j := by
  simp only [mem_expansion, mem_expansionLookaheads_iff_followedBy, Grammar.mem_productionsOf]
  constructor
  · intro h
    obtain ⟨_, p, t, hcurrent, ⟨hp, rfl⟩, ht, rfl⟩ := h
    exact .production hcurrent hp ht
  · intro h
    obtain ⟨hcurrent, hp, ht⟩ := h
    exact ⟨_, _, _, hcurrent, ⟨hp, rfl⟩, ht, rfl⟩

end Item

/-! ### The closure operator -/

namespace ItemSet

variable {g : Grammar} {first : TerminalSets} {s u : ItemSet} {i : Item}

theorem mem_closure_iff_expands :
    i ∈ s.closure g first ↔ ∃ j ∈ s, ReflTransGen (Item.Expands g first) j i := by
  rw [mem_closure_iff, reachable_iff_reflTransGen]
  simp only [Item.mem_expansion_iff_expands]
  rfl

theorem subset_closure (hi : i ∈ s) : i ∈ s.closure g first :=
  mem_closure_iff_expands.2 ⟨i, hi, .refl⟩

theorem mem_closure_of_expands {j : Item} (hj : j ∈ s.closure g first) (hi : Item.Expands g first j i) :
    i ∈ s.closure g first := by
  obtain ⟨k, hk, hchain⟩ := mem_closure_iff_expands.1 hj
  exact mem_closure_iff_expands.2 ⟨k, hk, hchain.tail hi⟩

/-- What the closure holds, every closed set holds in which the set is. -/
theorem closure_subset (hsub : ∀ j ∈ s, j ∈ u) (hclosed : ∀ j ∈ u, ∀ k, Item.Expands g first j k → k ∈ u) :
    ∀ i ∈ s.closure g first, i ∈ u := by
  intro i hi
  obtain ⟨j, hj, hchain⟩ := mem_closure_iff_expands.1 hi
  induction hchain with
  | refl => exact hsub j hj
  | tail _ hk ih => exact hclosed _ (ih (mem_closure_iff_expands.2 ⟨j, hj, ‹_›⟩)) _ hk

theorem closure_subset_closure (hsub : ∀ j ∈ s, j ∈ u.closure g first) :
    ∀ i ∈ s.closure g first, i ∈ u.closure g first :=
  closure_subset hsub fun _ hj _ hk => mem_closure_of_expands hj hk

theorem closure_closure : (s.closure g first).closure g first = s.closure g first :=
  SortedSet.ext_mem fun _ => ⟨closure_subset_closure (fun _ hj => hj) _, subset_closure⟩

theorem closure_union : (s ∪ u).closure g first = s.closure g first ∪ u.closure g first := by
  refine SortedSet.ext_mem fun i => ?_
  simp only [SortedSet.mem_union, mem_closure_iff_expands]
  constructor
  · intro h
    obtain ⟨j, hj | hj, hchain⟩ := h
    · exact .inl ⟨j, hj, hchain⟩
    · exact .inr ⟨j, hj, hchain⟩
  · intro h
    rcases h with ⟨j, hj, hchain⟩ | ⟨j, hj, hchain⟩
    · exact ⟨j, .inl hj, hchain⟩
    · exact ⟨j, .inr hj, hchain⟩

/-! ### Rounds -/

/-- The set with all that its items expand to. -/
def round (g : Grammar) (first : TerminalSets) (s : ItemSet) : ItemSet :=
  (s.toList.flatMap (Item.expansion g first)).foldl .insert s

theorem mem_round : i ∈ s.round g first ↔ i ∈ s ∨ ∃ j ∈ s, Item.Expands g first j i := by
  rw [round, SortedSet.mem_foldl_insert, List.mem_flatMap, or_comm]
  simp only [Item.mem_expansion_iff_expands]
  rfl

theorem closure_round : (s.round g first).closure g first = s.closure g first := by
  refine SortedSet.ext_mem fun i => ⟨closure_subset_closure ?_ i, closure_subset_closure ?_ i⟩
  · intro j hj
    rcases mem_round.1 hj with hj | ⟨k, hk, hj⟩
    · exact subset_closure hj
    · exact mem_closure_of_expands (subset_closure hk) hj
  · exact fun j hj => subset_closure (mem_round.2 (.inl hj))

/-- A round that does not make the set larger finds it closed. -/
theorem closure_eq_round (h : (s.round g first).size = s.size) : s.closure g first = s.round g first := by
  have hsub : s.toList ⊆ (s.round g first).toList := fun i hi => mem_round.2 (.inl hi)
  have hperm : s.toList.Perm (s.round g first).toList :=
    (List.subperm_of_subset s.nodup_toList hsub).perm_of_length_le (Nat.le_of_eq h)
  have hround : s.round g first = s := SortedSet.ext_mem fun i => hperm.mem_iff.symm
  rw [hround]
  refine SortedSet.ext_mem fun i => ⟨closure_subset (fun _ hj => hj) ?_ i, subset_closure⟩
  intro j hj k hk
  exact hround ▸ mem_round.2 (.inr ⟨j, hj, hk⟩)

/-- Rounds are made until one of them does not make the set larger. -/
def closeInRounds (g : Grammar) (first : TerminalSets) (s : ItemSet) : ItemSet :=
  let more := s.round g first
  if more.size = s.size then more else closeInRounds g first more
termination_by (s.closure g first).size - s.size
decreasing_by
  rename_i hmore
  have hgrows : s.size ≤ (s.round g first).size :=
    SortedSet.size_le_of_subset fun i hi => mem_round.2 (.inl hi)
  have hwithin : (s.round g first).size ≤ ((s.round g first).closure g first).size :=
    SortedSet.size_le_of_subset fun i hi => subset_closure hi
  have hne : (s.round g first).size ≠ s.size := hmore
  rw [closure_round] at hwithin ⊢
  omega

theorem closeInRounds_eq (s : ItemSet) : s.closeInRounds g first = s.closure g first := by
  fun_induction closeInRounds g first s with
  | case1 s more hmore => exact (closure_eq_round hmore).symm
  | case2 s more hmore ih => rw [ih, closure_round]

/-- The rounds end with the closure, which holds the items that chains of expansions reach from the set; closing is extensive, idempotent and monotone, and it distributes over union. -/
theorem closure_eq_reflTransGen (g : Grammar) (first : TerminalSets) (s : ItemSet) :
    s.closeInRounds g first = s.closure g first ∧
    (∀ i, i ∈ s.closure g first ↔ ∃ j ∈ s, ReflTransGen (Item.Expands g first) j i) ∧
    (∀ i ∈ s, i ∈ s.closure g first) ∧
    (s.closure g first).closure g first = s.closure g first ∧
    (∀ u : ItemSet, (∀ i ∈ s, i ∈ u) → ∀ i ∈ s.closure g first, i ∈ u.closure g first) ∧
    ∀ u : ItemSet, (s ∪ u).closure g first = s.closure g first ∪ u.closure g first := by
  refine ⟨closeInRounds_eq s, fun _ => mem_closure_iff_expands, fun _ => subset_closure, closure_closure,
    fun u hsub => ?_, fun _ => closure_union⟩
  exact closure_subset_closure fun j hj => subset_closure (hsub j hj)

end ItemSet

end CanonicalLR
