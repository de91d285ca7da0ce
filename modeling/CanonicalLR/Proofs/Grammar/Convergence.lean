import CanonicalLR.Log.Stages
import CanonicalLR.Proofs.Fixpoint.Passes
import CanonicalLR.Proofs.Grammar.Follow
import CanonicalLR.Proofs.Table.Evaluation

/-!
# How soon FIRST and FOLLOW converge

The inclusions of FIRST bring terminals into the sets of the names of productions, and those of FOLLOW into the sets of nonterminals that productions refer to, which are defined. So both relaxations have no other targets than the nonterminals of the grammar, and they stop within one pass more than there are nonterminals (`settled_first`, `settled_follow`). The log of a session tells of these passes and of no others (`convergences_ofSource`).
-/

namespace CanonicalLR

/-- The loop for the inclusions stops and leaves these sets for the names, with the count of its passes: at least one, and at most one more than there are names. -/
structure TerminalSets.Settled (sets : TerminalSets) (names : List NonTerminal)
    (inclusions : List (Inclusion NonTerminal Terminal)) : Prop where
  stops : ∃ s, relaxWithin inclusions (names.length + 1) .empty 0 = some s ∧ sets = .ofSolution names s
  passes_pos : 1 ≤ sets.passes
  passes_le : sets.passes ≤ names.length + 1

theorem TerminalSets.settled_solve {names : List NonTerminal} {inclusions : List (Inclusion NonTerminal Terminal)}
    (htargets : ∀ i ∈ inclusions, i.target ∈ names) :
    (TerminalSets.ofSolution names (solve inclusions)).Settled names inclusions := by
  have hconverged := converged_solve inclusions
  have hle := hconverged.passes_le htargets
  obtain ⟨s, hrelax, hpasses, hget⟩ := exists_relaxWithin hconverged hle
  refine ⟨⟨s, hrelax, ?_⟩, hconverged.passes_pos, hle⟩
  rw [ofSolution, ofSolution, hpasses, hget]

/-! ### Targets -/

namespace Grammar

theorem target_of_firstInclusion? {p : Production} {i : Inclusion NonTerminal Terminal}
    (h : p.firstInclusion? = some i) : i.target = p.name := by
  unfold Production.firstInclusion? at h
  split at h
  · cases h
  · exact Option.some.inj h ▸ rfl
  · exact Option.some.inj h ▸ rfl

theorem settled_first (g : Grammar) :
    g.first.Settled g.nonTerminals (g.productions.filterMap Production.firstInclusion?) := by
  apply TerminalSets.settled_solve
  intro i hi
  obtain ⟨p, hp, hinclusion⟩ := List.mem_filterMap.1 hi
  exact mem_nonTerminals.2 ⟨p, hp, (target_of_firstInclusion? hinclusion).symm⟩

theorem settled_follow (g : Grammar) (first : TerminalSets) :
    (g.follow first).Settled g.nonTerminals (Follow.inclusions first g.productions) := by
  apply TerminalSets.settled_solve
  intro i hi
  obtain ⟨p, hp, hinclusion⟩ := List.mem_flatMap.1 hi
  obtain ⟨before, n, after, hsymbols, rfl⟩ := mem_inclusionsOf.1 hinclusion
  have hmem : .nonterminal n ∈ p.symbols := hsymbols ▸ List.mem_append_right _ List.mem_cons_self
  exact mem_nonTerminals.2 (g.defined p hp n hmem)

end Grammar

/-! ### The log -/

/-- Whether an event tells that sets have converged. -/
def Event.tellsConvergence : Event → Bool
  | firstFound _ | followFound _ => true
  | _ => false

/-- The events of a log that tell that sets have converged. -/
def convergences (log : List Event) : List Event := log.filter Event.tellsConvergence

theorem convergences_append (log more : List Event) :
    convergences (log ++ more) = convergences log ++ convergences more := List.filter_append log more

theorem convergences_map {α : Type} {event : α → Event} (h : ∀ x, (event x).tellsConvergence = false)
    (l : List α) : convergences (l.map event) = [] := by
  apply List.filter_eq_nil_iff.2
  intro e he
  obtain ⟨x, -, rfl⟩ := List.mem_map.1 he
  rw [h x]
  exact Bool.false_ne_true

theorem convergences_reading (reading : Grammar.Reading) : convergences reading.events = [] := by
  rw [Grammar.Reading.events, convergences_append, convergences_map fun _ => rfl, List.nil_append]
  split <;> rfl

theorem convergences_transitionEvents (known : Nat) (transitions : List Transition) :
    convergences (transitionEvents known transitions) = [] := by
  fun_induction transitionEvents known transitions with
  | case1 => rfl
  | case2 t rest ih => exact ih
  | case3 known t rest hknown ih => exact ih

theorem convergences_automaton (a : Automaton) : convergences a.events = [] := by
  rw [Automaton.events, convergences_append, convergences_transitionEvents]
  rfl

theorem convergences_table (t : Table) : convergences t.events = [] := by
  rw [Table.events, convergences_append, convergences_map fun _ => rfl]
  rfl

theorem convergences_outcome (state : Nat) (outcome : Outcome) : convergences (outcome.events state) = [] := by
  unfold Outcome.events
  split <;> rfl

theorem convergences_run (r : Run) : convergences r.events = [] := by
  have hmove (move : Move) : move.event.tellsConvergence = false := by cases move <;> rfl
  rw [Run.events, convergences_append, convergences_map hmove, List.nil_append]
  cases r.outcome with
  | none => rfl
  | some outcome => exact convergences_outcome r.last.state outcome

namespace Session

variable {source : String} {g : Grammar}

theorem convergences_withTable (s : Session) (t : Table) : convergences (s.withTable t).1 = [] := by
  unfold withTable
  split
  · rfl
  · exact convergences_run _

theorem convergences_withGrammar (s : Session) (g : Grammar) : convergences (s.withGrammar g).1
    = convergences (if s.sets then g.setEvents else []) ++ [.firstFound g.first.passes] := by
  have hbefore : convergences ((if s.sets then g.setEvents else [])
      ++ .firstFound g.first.passes :: (Automaton.build g g.first).events)
      = convergences (if s.sets then g.setEvents else []) ++ [.firstFound g.first.passes] := by
    rw [convergences_append]
    exact congrArg (_ ++ Event.firstFound g.first.passes :: ·) (convergences_automaton _)
  cases htable : Table.build s.policy (Automaton.build g g.first) g with
  | error e =>
    simp only [withGrammar, htable]
    exact hbefore
  | ok t =>
    simp only [withGrammar, htable]
    rw [convergences_append, convergences_append, hbefore, convergences_table, convergences_withTable,
      List.append_nil, List.append_nil]

theorem convergences_ofSource (s : Session) (hg : Grammar.ofSource source = .ok g) :
    (convergences (s.ofSource source).1).map Event.message =
      (if s.sets then [s!"first sets converged after {g.first.passes} passes",
        s!"follow sets converged after {(g.follow g.first).passes} passes"] else [])
      ++ [s!"first sets converged after {g.first.passes} passes"] := by
  have hreading : (Grammar.read source).grammar = .ok g := hg
  have hlog : convergences (s.ofSource source).1
      = convergences (if s.sets then g.setEvents else []) ++ [.firstFound g.first.passes] := by
    simp only [ofSource, hreading]
    rw [convergences_append, convergences_append, convergences_reading, convergences_withGrammar]
    rfl
  rw [hlog]
  cases s.sets <;> rfl

end Session

namespace Grammar

/-- Both relaxations stop within one pass more than there are nonterminals, FOLLOW with whatever FIRST sets it starts from, and the log tells of their passes. -/
theorem settled_within_nonTerminals {source : String} {g : Grammar} (hg : ofSource source = .ok g) :
    g.first.Settled g.nonTerminals (g.productions.filterMap Production.firstInclusion?) ∧
    (∀ first, (g.follow first).Settled g.nonTerminals (Follow.inclusions first g.productions)) ∧
    ∀ s : Session, (convergences (s.ofSource source).1).map Event.message =
      (if s.sets then [s!"first sets converged after {g.first.passes} passes",
        s!"follow sets converged after {(g.follow g.first).passes} passes"] else [])
      ++ [s!"first sets converged after {g.first.passes} passes"] :=
  ⟨g.settled_first, g.settled_follow, fun s => s.convergences_ofSource hg⟩

/-- Both bounds are met. The `x` of `b` and the `y` behind the root go from one nonterminal to the next against the order of the productions, one step in each pass. -/
theorem settled_within_nonTerminals_attained : ∃ g,
    ofSource "a : z @b ; __root : @a ; a : @b q ; b : x @__root y ; b : x ;" = .ok g
      ∧ g.nonTerminals = [⟨"a"⟩, .root, ⟨"b"⟩]
      ∧ g.first.Settled g.nonTerminals (g.productions.filterMap Production.firstInclusion?) ∧ g.first.passes = 4
      ∧ (g.follow g.first).Settled g.nonTerminals (Follow.inclusions g.first g.productions)
      ∧ (g.follow g.first).passes = 4
      ∧ (convergences (Session.ofSource { sets := true }
          "a : z @b ; __root : @a ; a : @b q ; b : x @__root y ; b : x ;").1).map Event.message
        = ["first sets converged after 4 passes", "follow sets converged after 4 passes",
          "first sets converged after 4 passes"] := by
  obtain ⟨g, -, hg, -, hnames, hfirst, hfollow⟩ := Table.exists_table_of_within .overwrite 30
    "a : z @b ; __root : @a ; a : @b q ; b : x @__root y ; b : x ;"
    (P := fun g _ => g.nonTerminals = [⟨"a"⟩, .root, ⟨"b"⟩] ∧ g.first.passes = 4
      ∧ (g.follow g.first).passes = 4)
    (by decide +kernel)
  obtain ⟨hsettled, hsettledFollow, hlog⟩ := settled_within_nonTerminals hg
  refine ⟨g, hg, hnames, hsettled, hfirst, hsettledFollow g.first, hfollow, ?_⟩
  rw [hlog { sets := true }, hfirst, hfollow]
  rfl

end Grammar

end CanonicalLR
