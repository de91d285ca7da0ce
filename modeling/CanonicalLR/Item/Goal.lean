import CanonicalLR.First
import CanonicalLR.Fixpoint.Exploration
import CanonicalLR.Item.Basic

/-!
# What items expect

An item whose dot stands before a nonterminal expects a phrase of that nonterminal, with a terminal that
can follow the phrase. Each such goal lets the productions of the nonterminal start, and the items at
which they start have goals of their own. Only finitely many goals come about in this way
(`confined_goals`).
-/

namespace CanonicalLR

open Std

/-- A nonterminal that is expected, and a terminal that can follow it. -/
structure Goal where
  name : NonTerminal
  lookahead : Terminal
deriving DecidableEq

namespace Item

/-- What can follow the current symbol of the item. Where the next symbol is a nonterminal of which
nothing is known, the lookahead of the item stands in. -/
def expansionLookaheads (first : TerminalSets) (i : Item) : List Terminal :=
  match i.following? with
  | none => [i.lookahead]
  | some (.terminal t) => [t]
  | some (.nonterminal n) =>
    match first.get? n with
    | some (t :: rest) => t :: rest
    | _ => [i.lookahead]

def goals (first : TerminalSets) (i : Item) : List Goal :=
  match i.current? with
  | some (.nonterminal n) => (i.expansionLookaheads first).map (Goal.mk n)
  | _ => []

theorem mem_goals {first : TerminalSets} {i : Item} {goal : Goal} :
    goal ∈ i.goals first ↔
      i.current? = some (.nonterminal goal.name) ∧ goal.lookahead ∈ i.expansionLookaheads first := by
  unfold goals
  split
  · rename_i n hn
    simp only [List.mem_map, hn, Option.some.injEq, Symbol.nonterminal.injEq]
    constructor
    · rintro ⟨t, ht, rfl⟩
      exact ⟨rfl, ht⟩
    · rintro ⟨rfl, ht⟩
      exact ⟨_, ht, rfl⟩
  · rename_i hnot
    simp only [List.not_mem_nil, false_iff, not_and]
    exact fun hn => absurd hn (hnot goal.name)

end Item

namespace Goal

/-! ### Order -/

instance : Ord Goal where
  compare a b := (compare a.name b.name).then (compare a.lookahead b.lookahead)

instance : TransOrd Goal :=
  inferInstanceAs (TransCmp (compareLex (compareOn Goal.name) (compareOn Goal.lookahead)))

instance : LawfulEqOrd Goal where
  eq_of_compare {a b} h := by
    obtain ⟨hname, hlookahead⟩ := Ordering.then_eq_eq.1 h
    cases a; cases b
    obtain rfl := LawfulEqOrd.eq_of_compare (α := NonTerminal) hname
    obtain rfl := LawfulEqOrd.eq_of_compare (α := Terminal) hlookahead
    rfl

/-! ### Expansion -/

/-- The items at which the productions of the nonterminal start. -/
def items (g : Grammar) (goal : Goal) : List Item :=
  (g.productionsOf goal.name).map (Item.initial · goal.lookahead)

/-- The goals of the items at which the productions of the nonterminal start. -/
def subgoals (g : Grammar) (first : TerminalSets) (goal : Goal) : List Goal :=
  (goal.items g).flatMap (Item.goals first)

theorem mem_items {g : Grammar} {goal : Goal} {i : Item} :
    i ∈ goal.items g ↔ ∃ p ∈ g.productions, p.name = goal.name ∧ i = .initial p goal.lookahead := by
  simp only [items, List.mem_map, Grammar.mem_productionsOf]
  constructor
  · rintro ⟨p, ⟨hp, hname⟩, rfl⟩
    exact ⟨p, hp, hname, rfl⟩
  · rintro ⟨p, hp, hname, rfl⟩
    exact ⟨p, ⟨hp, hname⟩, rfl⟩

/-- Subgoals are about nonterminals in the grammar, with lookaheads from a finite list. -/
theorem confined_goals (g : Grammar) (first : TerminalSets) (start : List Goal) :
    Confined (subgoals g first) start := by
  let lookaheads := start.map lookahead ++ (g.terminals ++ first.all)
  refine ⟨start ++ (Grammar.references g.productions).flatMap fun n => lookaheads.map (Goal.mk n),
    fun goal h => List.mem_append_left _ h, ?_⟩
  intro goal hgoal subgoal hsubgoal
  have hlookahead : goal.lookahead ∈ lookaheads := by
    rcases List.mem_append.1 hgoal with h | h
    · exact List.mem_append_left _ (List.mem_map_of_mem h)
    · obtain ⟨n, -, h⟩ := List.mem_flatMap.1 h
      obtain ⟨t, ht, rfl⟩ := List.mem_map.1 h
      exact ht
  obtain ⟨i, hi, hsub⟩ := List.mem_flatMap.1 hsubgoal
  obtain ⟨p, hp, -, rfl⟩ := mem_items.1 hi
  obtain ⟨hname, ht⟩ := Item.mem_goals.1 hsub
  refine List.mem_append_right _ (List.mem_flatMap.2 ⟨subgoal.name, ?_, List.mem_map.2 ⟨_, ?_, rfl⟩⟩)
  · exact List.mem_flatMap.2 ⟨p, hp, List.mem_filterMap.2 ⟨_, List.mem_of_getElem? hname, rfl⟩⟩
  · unfold Item.expansionLookaheads at ht
    split at ht
    · exact List.mem_singleton.1 ht ▸ hlookahead
    · rename_i t hnext
      obtain rfl := List.mem_singleton.1 ht
      exact List.mem_append_right _ (List.mem_append_left _
        (Grammar.mem_terminals.2 ⟨p, hp, List.mem_of_getElem? hnext⟩))
    · split at ht
      · rename_i hfirst
        exact List.mem_append_right _ (List.mem_append_right _ (TerminalSets.mem_all_of_get? hfirst ht))
      · exact List.mem_singleton.1 ht ▸ hlookahead

end Goal

/-- The items that start because this one expects a nonterminal. -/
def Item.expansion (g : Grammar) (first : TerminalSets) (i : Item) : List Item :=
  (i.goals first).flatMap (Goal.items g)

theorem Item.mem_expansion {g : Grammar} {first : TerminalSets} {i j : Item} :
    j ∈ i.expansion g first ↔
      ∃ n p t, i.current? = some (.nonterminal n) ∧ p ∈ g.productionsOf n
        ∧ t ∈ i.expansionLookaheads first ∧ j = .initial p t := by
  simp only [expansion, List.mem_flatMap, Goal.items, List.mem_map, mem_goals]
  constructor
  · rintro ⟨goal, ⟨hn, ht⟩, p, hp, rfl⟩
    exact ⟨goal.name, p, goal.lookahead, hn, hp, ht, rfl⟩
  · rintro ⟨n, p, t, hn, hp, ht, rfl⟩
    exact ⟨⟨n, t⟩, ⟨hn, ht⟩, p, hp, rfl⟩

end CanonicalLR
