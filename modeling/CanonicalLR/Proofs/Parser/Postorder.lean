import CanonicalLR.Log.Stages
import CanonicalLR.Proofs.Parser.Acceptance
import CanonicalLR.Proofs.Parser.Stopping

/-!
# The order of moves

A parser shifts a token when it makes a leaf and reduces when it makes a node, and it makes a node when the children are there. So the postorders of the trees on its stack, one after the other, are the row of all moves it has made: a shift adds a leaf at the end, and a reduction adds a node behind the postorders of the trees that it takes, which are the last ones (`history_reduce`). This is true of every table (`history_last_run`). Acceptance takes the root's children off and makes no move, so where nothing is left behind the moves are the postorder of the accepted tree without its root. The log has one event for each move, so it tells of the trees of the postorder one by one (`Tree.forall₂_logged`).
-/

namespace CanonicalLR

/-- What a parser does to complete a leaf or a node. -/
inductive Act where
  | shift (kind : String)
  | reduce (name : NonTerminal) (count : Nat)
deriving DecidableEq

namespace Move

def act : Move → Act
  | shift _ kind _ => .shift kind
  | reduce name count _ _ => .reduce name count

/-- The index of the token that is shifted. -/
def index? : Move → Option Nat
  | shift index _ _ => some index
  | reduce .. => none

end Move

namespace Tree

/-- What completes the tree when its children are complete. -/
def act : Tree → Act
  | leaf token => .shift token.kind
  | node name children => .reduce name children.length

mutual

/-- The tree and all trees in it, a node behind its children. -/
def postorder : Tree → List Tree
  | leaf token => [leaf token]
  | node name children => postorderAll children ++ [node name children]

def postorderAll : List Tree → List Tree
  | [] => []
  | c :: rest => c.postorder ++ postorderAll rest

end

theorem postorderAll_append (cs ds : List Tree) : postorderAll (cs ++ ds) = postorderAll cs ++ postorderAll ds := by
  induction cs with
  | nil => rfl
  | cons c rest ih => rw [List.cons_append, postorderAll, postorderAll, ih, List.append_assoc]

theorem postorderAll_singleton (t : Tree) : postorderAll [t] = t.postorder := by
  rw [postorderAll, postorderAll, List.append_nil]

theorem dropLast_postorder (name : NonTerminal) (children : List Tree) :
    (node name children).postorder.dropLast = postorderAll children := by
  rw [postorder, List.dropLast_concat]

/-- What the log says of a tree that is completed when `index` tokens have been shifted: an event and its message. -/
inductive Logged (index : Nat) : Tree → Event → String → Prop where
  | leaf (token : Token) (target : Nat) : Logged index (leaf token) (.shifted index token.kind target)
    s!"shift #{index} `{token.kind}`, push I_{target}"
  | node (name : NonTerminal) (children : List Tree) (exposed target : Nat) :
    Logged index (node name children) (.reduced name children.length exposed target)
    s!"reduce {name.name} by {children.length} symbols, GOTO(I_{exposed}, {name.name}) = I_{target}"

/-- The trees, each with the number of leaves before it, of which `index` come before the first. -/
def numbered (index : Nat) : List Tree → List (Nat × Tree)
  | [] => []
  | leaf token :: rest => (index, leaf token) :: numbered (index + 1) rest
  | node name children :: rest => (index, node name children) :: numbered index rest

/-- Moves that complete the trees one by one, and shift the tokens in their order, are told as the log says of the trees. -/
theorem forall₂_logged {moves : List Move} {row : List Tree} {index count : Nat}
    (hacts : moves.map Move.act = row.map Tree.act)
    (hindexes : moves.filterMap Move.index? = List.range' index count) :
    List.Forall₂ (fun (index, u) event => u.Logged index event event.message) (numbered index row)
      (moves.map Move.event) := by
  induction row generalizing moves index count with
  | nil =>
    obtain rfl := List.map_eq_nil_iff.1 hacts
    exact .nil
  | cons u row ih =>
    cases moves with
    | nil => cases hacts
    | cons move moves =>
      obtain ⟨hact, hrest⟩ := List.cons.inj hacts
      cases u with
      | leaf token =>
        cases move with
        | reduce => cases hact
        | shift i kind target =>
          obtain rfl := Act.shift.inj hact
          cases count with
          | zero => cases hindexes
          | succ count =>
            obtain ⟨rfl, hmore⟩ := List.cons.inj hindexes
            exact .cons (.leaf token target) (ih hrest hmore)
      | node name children =>
        cases move with
        | shift => cases hact
        | reduce n size exposed target =>
          obtain ⟨rfl, rfl⟩ := Act.reduce.inj hact
          exact .cons (.node n children exposed target) (ih hrest hindexes)

end Tree

/-! ### The moves that a stack tells of -/

/-- What has been done to build the trees on a stack. -/
def history (stack : List Frame) : List Act := (Tree.postorderAll (stackTrees stack)).map Tree.act

theorem history_cons (f : Frame) (stack : List Frame) :
    history (f :: stack) = history stack ++ f.tree.postorder.map Tree.act := by
  rw [history, stackTrees_cons, Tree.postorderAll_append, Tree.postorderAll_singleton, List.map_append]
  rfl

theorem length_topTrees {stack : List Frame} {count : Nat} (hcount : count ≤ stack.length) :
    (topTrees stack count).length = count := by
  rw [topTrees, List.length_reverse, List.length_map, List.length_take, Nat.min_eq_left hcount]

/-- A node comes behind all that its children were built with. -/
theorem history_reduce {stack : List Frame} {count : Nat} (hcount : count ≤ stack.length) (target : Nat)
    (name : NonTerminal) : history (⟨target, .node name (topTrees stack count)⟩ :: stack.drop count)
      = history stack ++ [.reduce name count] := by
  have hsplit : history stack
      = history (stack.drop count) ++ (Tree.postorderAll (topTrees stack count)).map Tree.act := by
    rw [history, stackTrees_eq_append stack count, Tree.postorderAll_append, List.map_append]
    rfl
  rw [history_cons, hsplit, List.append_assoc, Tree.postorder, List.map_append, List.map_singleton, Tree.act,
    length_topTrees hcount]

namespace Table

variable {policy : ConflictPolicy} {g columns : Grammar} {t : Table} {tokens : List Token}
  {c c' : Configuration} {move : Move} {tree : Tree} {source : String}

theorem history_of_step (h : t.step c = .move move c') : history c'.stack = history c.stack ++ [move.act] := by
  rcases step_eq_move_iff.1 h with
    ⟨target, token, rest, -, -, rfl, rfl⟩ | ⟨name, count, target, -, hcount, -, rfl, rfl⟩
  · exact history_cons _ _
  · exact history_reduce hcount target name

theorem range_index_of_step (h : t.step c = .move move c') :
    List.range c'.index = List.range c.index ++ move.index?.toList := by
  rcases step_eq_move_iff.1 h with ⟨_, _, _, -, -, rfl, rfl⟩ | ⟨_, _, _, -, -, -, rfl, rfl⟩
  · exact List.range_succ
  · exact (List.append_nil _).symm

/-- What every move adds to a list, a run adds move by move. -/
theorem append_last_run {α : Type} {f : Configuration → List α} {more : Move → List α}
    (hstep : ∀ {c c' : Configuration} {move : Move}, t.step c = .move move c' → f c' = f c ++ more move)
    (limit : Nat) (c : Configuration) : f (t.run limit c).last = f c ++ (t.run limit c).moves.flatMap more := by
  induction limit generalizing c with
  | zero => exact (List.append_nil _).symm
  | succ limit ih =>
    rw [run]
    split
    · exact (List.append_nil _).symm
    · rename_i move next hmove
      rw [List.flatMap_cons, ← List.append_assoc, ← hstep hmove]
      exact ih next

/-- The stack tells of the moves of a run, behind those that it told of before. -/
theorem history_last_run (t : Table) (limit : Nat) (c : Configuration) :
    history (t.run limit c).last.stack = history c.stack ++ (t.run limit c).moves.map Move.act := by
  rw [List.map_eq_flatMap]
  exact append_last_run (f := fun c => history c.stack) history_of_step limit c

theorem range_index_last_run (t : Table) (limit : Nat) (c : Configuration) :
    List.range (t.run limit c).last.index = List.range c.index ++ (t.run limit c).moves.filterMap Move.index? := by
  rw [List.filterMap_eq_flatMap_toList]
  exact append_last_run (f := fun c => List.range c.index) range_index_of_step limit c

theorem stackTrees_of_accepted (hg : g.WellFormed) (hroot : g.RootUnreferenced)
    (ht : build policy (.ofGrammar g) columns = .ok t) (h : (t.parse tokens).outcome = some (.accepted tree)) :
    stackTrees (t.parse tokens).last.stack = tree.children := by
  obtain ⟨below, hstack, hacceptance⟩ := acceptance_of_parse hg ht h
  obtain rfl : below = [] := List.map_eq_nil_iff.1 (hroot.eq_nil hacceptance.starts)
  rw [hstack, List.nil_append]

theorem acts_of_stackTrees {children : List Tree} (h : stackTrees (t.parse tokens).last.stack = children) :
    (t.parse tokens).moves.map Move.act = (Tree.node .root children).postorder.dropLast.map Tree.act := by
  have hhistory : history (t.parse tokens).last.stack = [] ++ (t.parse tokens).moves.map Move.act :=
    history_last_run t _ _
  rw [List.nil_append, history, h] at hhistory
  rw [Tree.dropLast_postorder]
  exact hhistory.symm

theorem indexes_of_stackTrees {children : List Tree} (h : stackTrees (t.parse tokens).last.stack = children) :
    (t.parse tokens).moves.filterMap Move.index? = List.range (Tree.node .root children).leaves.length := by
  have hrange : List.range (t.parse tokens).last.index = [] ++ (t.parse tokens).moves.filterMap Move.index? :=
    range_index_last_run t _ _
  obtain ⟨-, hindex⟩ := stackLeaves_append_rest (reaches_run t (t.stepBound tokens) (.start tokens))
  have hleaves : stackLeaves (t.parse tokens).last.stack = (Tree.node .root children).leaves := by
    rw [stackLeaves, h, Tree.leaves_node]
  rw [List.nil_append] at hrange
  rw [← hrange, ← hleaves]
  exact congrArg List.range hindex

/-- The moves that lead to an accepted tree are its postorder without the root, the tokens being shifted in their order from the first one on. The log tells of the trees in this order, one by one, and then of the acceptance. -/
theorem moves_eq_postorder (hg : Grammar.ofSource source = .ok g) (hroot : g.RootUnreferenced)
    (ht : ofGrammar policy g = .ok t) (h : (t.parse tokens).outcome = some (.accepted tree)) :
    (t.parse tokens).moves.map Move.act = tree.postorder.dropLast.map Tree.act ∧
    (t.parse tokens).moves.filterMap Move.index? = List.range tree.leaves.length ∧
    ∃ told, (t.parse tokens).events = told ++ [.accepted] ∧
      List.Forall₂ (fun (index, u) event => u.Logged index event event.message)
        (Tree.numbered 0 tree.postorder.dropLast) told := by
  have hwell := Grammar.wellFormed_of_ofSource hg
  have hstack := stackTrees_of_accepted hwell hroot ht h
  obtain ⟨_, -, hacceptance⟩ := acceptance_of_parse hwell ht h
  obtain ⟨children, rfl, -, -⟩ := hacceptance.derivation
  have hacts := acts_of_stackTrees hstack
  have hindexes := indexes_of_stackTrees hstack
  refine ⟨hacts, hindexes, _, ?_, Tree.forall₂_logged hacts (hindexes.trans List.range_eq_range')⟩
  rw [Run.events, h]
  rfl

/-- A list is built from the left. -/
theorem moves_eq_postorder_list : ∃ g t, Grammar.ofSource "__root : @list ; list : @list comma id ; list : id ;" = .ok g
    ∧ g.RootUnreferenced ∧ ofGrammar .reject g = .ok t ∧
    let tree : Tree := .node .root
      [.node ⟨"list"⟩ [.node ⟨"list"⟩ [.leaf (.plain "id")], .leaf (.plain "comma"), .leaf (.plain "id")]]
    let run := t.parse (["id", "comma", "id"].map .plain)
    run.outcome = some (.accepted tree)
      ∧ run.moves.map Move.act
        = [.shift "id", .reduce ⟨"list"⟩ 1, .shift "comma", .shift "id", .reduce ⟨"list"⟩ 3]
      ∧ run.moves.filterMap Move.index? = [0, 1, 2]
      ∧ run.events = [.shifted 0 "id" 1, .reduced ⟨"list"⟩ 1 0 2, .shifted 1 "comma" 3, .shifted 2 "id" 4,
        .reduced ⟨"list"⟩ 3 0 2, .accepted]
      ∧ run.events.map Event.message = ["shift #0 `id`, push I_1", "reduce list by 1 symbols, GOTO(I_0, list) = I_2",
        "shift #1 `comma`, push I_3", "shift #2 `id`, push I_4", "reduce list by 3 symbols, GOTO(I_0, list) = I_2",
        "input accepted"]
      ∧ List.Forall₂ (fun (index, u) event => u.Logged index event event.message)
        (Tree.numbered 0 tree.postorder.dropLast) run.events.dropLast := by
  let tree : Tree := .node .root
    [.node ⟨"list"⟩ [.node ⟨"list"⟩ [.leaf (.plain "id")], .leaf (.plain "comma"), .leaf (.plain "id")]]
  obtain ⟨g, t, hg, ht, hroot, houtcome, hevents⟩ := exists_table_of_within .reject 20
    "__root : @list ; list : @list comma id ; list : id ;"
    (P := fun g t => g.RootUnreferenced ∧ (t.parse (["id", "comma", "id"].map .plain)).outcome = some (.accepted tree)
      ∧ (t.parse (["id", "comma", "id"].map .plain)).events = [.shifted 0 "id" 1, .reduced ⟨"list"⟩ 1 0 2,
        .shifted 1 "comma" 3, .shifted 2 "id" 4, .reduced ⟨"list"⟩ 3 0 2, .accepted])
    (by decide +kernel)
  obtain ⟨hacts, hindexes, told, htold, hlogged⟩ := moves_eq_postorder hg hroot ht houtcome
  have hlength : tree.leaves.length = 3 := by simp [tree]
  rw [hlength] at hindexes
  refine ⟨g, t, hg, hroot, ht, houtcome, hacts, hindexes, hevents, ?_, ?_⟩
  · rw [hevents]
    rfl
  · rw [htold, List.dropLast_concat]
    exact hlogged

end Table

end CanonicalLR
