import CanonicalLR.Parser.Run
import CanonicalLR.Proofs.Automaton.Items

/-!
# Stacks

A stack spells the symbols of its trees from the bottom to the top. It is supported by an automaton when every frame holds the successor of the state below it on the symbol of its tree; the state on top is then the end of the path that the stack spells (`Supports.walk?`), so the theory of paths applies to it. A reduction takes the end of the path off: when the symbols of a production end it, the trees on top are a row of children for that production.
-/

namespace CanonicalLR

/-- The symbols of the trees on a stack, from the bottom. -/
def stackSymbols (stack : List Frame) : List Symbol := (stack.map fun f => f.tree.symbol).reverse

/-- The trees on a stack, from the bottom. -/
def stackTrees (stack : List Frame) : List Tree := (stack.map Frame.tree).reverse

@[simp] theorem stackSymbols_cons (f : Frame) (stack : List Frame) :
    stackSymbols (f :: stack) = stackSymbols stack ++ [f.tree.symbol] := by
  simp [stackSymbols]

@[simp] theorem stackTrees_cons (f : Frame) (stack : List Frame) :
    stackTrees (f :: stack) = stackTrees stack ++ [f.tree] := by
  simp [stackTrees]

theorem map_symbol_stackTrees (stack : List Frame) : (stackTrees stack).map Tree.symbol = stackSymbols stack := by
  simp [stackTrees, stackSymbols, List.map_reverse, Function.comp_def]

theorem length_stackTrees (stack : List Frame) : (stackTrees stack).length = stack.length := by
  simp [stackTrees]

theorem stackTrees_eq_append (stack : List Frame) (count : Nat) :
    stackTrees stack = stackTrees (stack.drop count) ++ topTrees stack count := by
  rw [stackTrees, stackTrees, topTrees, ← List.reverse_append, ← List.map_append, List.take_append_drop]

theorem topTrees_of_stackTrees {stack : List Frame} {below top : List Tree} {count : Nat}
    (h : stackTrees stack = below ++ top) (hcount : top.length = count) :
    stackTrees (stack.drop count) = below ∧ topTrees stack count = top := by
  have hlength : stack.length = below.length + count := by
    rw [← length_stackTrees, h, List.length_append, hcount]
  rw [stackTrees_eq_append stack count] at h
  apply List.append_inj h
  rw [length_stackTrees, List.length_drop]
  omega

/-- When the symbols of a production end a stack, the topmost trees are its children. -/
theorem topTrees_of_stackSymbols {stack : List Frame} {before symbols : List Symbol}
    (h : stackSymbols stack = before ++ symbols) :
    stackSymbols (stack.drop symbols.length) = before
      ∧ (topTrees stack symbols.length).map Tree.symbol = symbols := by
  have hlength : stack.length = before.length + symbols.length := by
    rw [← List.length_append, ← h, ← map_symbol_stackTrees, List.length_map, length_stackTrees]
  rw [← map_symbol_stackTrees, stackTrees_eq_append stack symbols.length, List.map_append] at h
  rw [← map_symbol_stackTrees]
  apply List.append_inj h
  rw [List.length_map, length_stackTrees, List.length_drop]
  omega

namespace Automaton

/-- Every frame holds the successor of the state below it on the symbol of its tree. -/
inductive Supports (a : Automaton) : List Frame → Prop where
  | nil : Supports a []
  | push {stack : List Frame} {f : Frame} : Supports a stack →
    a.goto? (topState stack) f.tree.symbol = some f.state → Supports a (f :: stack)

variable {a : Automaton} {stack : List Frame}

theorem Supports.drop (h : a.Supports stack) (count : Nat) : a.Supports (stack.drop count) := by
  induction h generalizing count with
  | nil =>
    rw [List.drop_nil]
    exact .nil
  | push hstack hgoto ih =>
    cases count with
    | zero => exact .push hstack hgoto
    | succ count => exact ih count

/-- The state on top is the end of the path that the stack spells. -/
theorem Supports.walk? (h : a.Supports stack) : a.walk? (stackSymbols stack) = some (topState stack) := by
  induction h with
  | nil => rfl
  | push _ hgoto ih =>
    rw [stackSymbols_cons, walk?_concat, ih]
    exact hgoto

end Automaton

end CanonicalLR
