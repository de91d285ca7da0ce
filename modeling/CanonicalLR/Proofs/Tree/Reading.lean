import CanonicalLR.Proofs.Grammar.Derivation
import CanonicalLR.Proofs.Table.Evaluation

/-!
# Trees read back

The leaves of a tree are those of its children one after the other, whether they are found by recursion or with a stack from whose end trees are taken (`gather_eq`). The text of a tree does not tell everything about it: of a token it shows the kind only. What it does tell, the tree's outline, can be read back character by character if no name and no kind is empty or has a space or a parenthesis in it. A reader keeps the lists of trees that are still open, each with the name of its node in front, and the word that is being read. A word may go on until the next space or parenthesis, so the reader is described by what it has if the word ends here: the text of a tree then puts one tree behind those of the innermost list (`exists_read_text`), and reading inverts printing (`read?_text`).
-/

namespace CanonicalLR

namespace Tree

/-! ### Leaves -/

mutual

/-- The token of a leaf, and of a node the tokens of its children from left to right. -/
def yield : Tree → List Token
  | leaf token => [token]
  | node _ children => yieldAll children

def yieldAll : List Tree → List Token
  | [] => []
  | c :: rest => c.yield ++ yieldAll rest

end

theorem yieldAll_eq (ts : List Tree) : yieldAll ts = ts.flatMap yield := by
  induction ts with
  | nil => rfl
  | cons c rest ih => rw [yieldAll, ih, List.flatMap_cons]

mutual

theorem leaves_eq_yield : (t : Tree) → t.leaves = t.yield
  | leaf token => by rw [leaves_leaf, yield]
  | node name children => by rw [leaves_node, yield, flatMap_leaves children]

theorem flatMap_leaves : (ts : List Tree) → ts.flatMap leaves = yieldAll ts
  | [] => rfl
  | c :: rest => by rw [List.flatMap_cons, yieldAll, leaves_eq_yield c, flatMap_leaves rest]

end

theorem sizeAll_reverse (ts : List Tree) : sizeAll ts.reverse = sizeAll ts := by
  induction ts with
  | nil => rfl
  | cons c rest ih => simp [sizeAll_append, sizeAll, ih, Nat.add_comm]

/-- Takes trees from the end of a stack. A leaf is noted, and a node gives way to its children, of which the first is
then the last on the stack. -/
def gather (stack : List Tree) (found : List Token) : List Token :=
  match _h : stack.getLast? with
  | none => found
  | some (leaf token) => gather stack.dropLast (found ++ [token])
  | some (node _ children) => gather (stack.dropLast ++ children.reverse) found
termination_by sizeAll stack
decreasing_by
  · obtain ⟨below, rfl⟩ := List.getLast?_eq_some_iff.1 _h
    simp [sizeAll_append, sizeAll, size]
  · obtain ⟨below, rfl⟩ := List.getLast?_eq_some_iff.1 _h
    simp [sizeAll_append, sizeAll_reverse, sizeAll, size]

theorem gather_eq (stack : List Tree) (found : List Token) :
    gather stack found = found ++ stack.reverse.flatMap yield := by
  fun_induction gather stack found with
  | case1 stack found h =>
    rw [List.getLast?_eq_none_iff] at h
    simp [h]
  | case2 stack found token h ih =>
    obtain ⟨below, rfl⟩ := List.getLast?_eq_some_iff.1 h
    rw [List.dropLast_concat] at ih
    simp [ih, yield]
  | case3 stack found name children h ih =>
    obtain ⟨below, rfl⟩ := List.getLast?_eq_some_iff.1 h
    rw [List.dropLast_concat] at ih
    simp [ih, yield, yieldAll_eq]

/-! ### What a text tells -/

mutual

/-- The tree with nothing but the kinds of its tokens. -/
def outline : Tree → Tree
  | leaf token => leaf (.plain token.kind)
  | node name children => node name (outlineAll children)

def outlineAll : List Tree → List Tree
  | [] => []
  | c :: rest => c.outline :: outlineAll rest

end

theorem outlineAll_eq (ts : List Tree) : outlineAll ts = ts.map outline := by
  induction ts with
  | nil => rfl
  | cons c rest ih => rw [outlineAll, ih, List.map_cons]

mutual

theorem text_outline : (t : Tree) → t.outline.text = t.text
  | leaf token => by rw [outline, text_leaf, text_leaf, Token.plain]
  | node name children => by rw [outline, text_node, text_node, map_text_outlineAll children]

theorem map_text_outlineAll :
    (ts : List Tree) → ((outlineAll ts).map fun t => " " ++ t.text) = ts.map fun t => " " ++ t.text
  | [] => rfl
  | c :: rest => by rw [outlineAll, List.map_cons, List.map_cons, text_outline c, map_text_outlineAll rest]

end

/-- What a text shows of a tree alone. -/
def label : Tree → String
  | leaf token => token.kind
  | node name _ => name.text

/-- Neither empty nor cut by the marks of a tree's text. -/
def IsWord (s : String) : Prop := s ≠ "" ∧ ∀ c ∈ s.toList, c ≠ ' ' ∧ c ≠ '(' ∧ c ≠ ')'

instance (s : String) : Decidable (IsWord s) :=
  decidable_of_iff (s ≠ "" ∧ s.toList.all (fun c => c ≠ ' ' ∧ c ≠ '(' ∧ c ≠ ')') = true) (by simp [IsWord])

def Legible (t : Tree) : Prop := ∀ u ∈ t.preorder, IsWord u.label

instance (t : Tree) : Decidable t.Legible := inferInstanceAs (Decidable (∀ u ∈ t.preorder, IsWord u.label))

theorem preorderAll_eq (ts : List Tree) : preorderAll ts = ts.flatMap preorder := by
  induction ts with
  | nil => rfl
  | cons c rest ih => rw [preorderAll, ih, List.flatMap_cons]

theorem legible_leaf {token : Token} : (leaf token).Legible ↔ IsWord token.kind := by
  simp [Legible, preorder, label]

theorem legible_node {name : NonTerminal} {children : List Tree} :
    (node name children).Legible ↔ IsWord name.text ∧ ∀ c ∈ children, c.Legible := by
  simp only [Legible, preorder, preorderAll_eq, List.forall_mem_cons, List.mem_flatMap, label]
  grind

/-! ### Reading -/

/-- Lists of trees that are still open, the innermost first, and the word being read. The first tree of a list, where
it is a leaf, is the name of a node. -/
structure Reader where
  opened : List (List Tree)
  word : List Char

namespace Reader

/-- The lists if the word ends here. -/
def settled (r : Reader) : List (List Tree) :=
  match r.word, r.opened with
  | c :: cs, inner :: outer => (inner ++ [leaf (.plain (.ofList (c :: cs)))]) :: outer
  | _, opened => opened

/-- The innermost list becomes a node, the last tree of the list around it. -/
def close? : List (List Tree) → Option (List (List Tree))
  | (leaf token :: children) :: inner :: outer => some ((inner ++ [node ⟨token.kind⟩ children]) :: outer)
  | _ => none

def readChar? (r : Reader) : Char → Option Reader
  | '(' => some ⟨[] :: r.settled, []⟩
  | ')' => (close? r.settled).map fun opened => ⟨opened, []⟩
  | ' ' => some ⟨r.settled, []⟩
  | c => some { r with word := r.word ++ [c] }

def read? (r : Reader) (cs : List Char) : Option Reader := cs.foldlM readChar? r

theorem read?_nil (r : Reader) : r.read? [] = some r := rfl

theorem read?_append (r : Reader) (cs ds : List Char) : r.read? (cs ++ ds) = (r.read? cs).bind (·.read? ds) :=
  List.foldlM_append

theorem read?_cons (r : Reader) (c : Char) (cs : List Char) : r.read? (c :: cs) = (r.readChar? c).bind (·.read? cs) :=
  List.foldlM_cons

theorem read?_word (opened : List (List Tree)) (word cs : List Char) (h : ∀ c ∈ cs, c ≠ ' ' ∧ c ≠ '(' ∧ c ≠ ')') :
    read? ⟨opened, word⟩ cs = some ⟨opened, word ++ cs⟩ := by
  induction cs generalizing word with
  | nil => rw [List.append_nil]; rfl
  | cons c rest ih =>
    obtain ⟨⟨hspace, hleft, hright⟩, hrest⟩ := List.forall_mem_cons.1 h
    have hchar : readChar? ⟨opened, word⟩ c = some ⟨opened, word ++ [c]⟩ := by
      rw [readChar?] <;> simp_all
    rw [read?_cons, hchar, Option.bind_some, ih _ hrest, List.append_assoc, List.singleton_append]

theorem settled_nil (opened : List (List Tree)) : settled ⟨opened, []⟩ = opened := rfl

theorem settled_word (inner : List Tree) (outer : List (List Tree)) {s : String} (h : s ≠ "") :
    settled ⟨inner :: outer, s.toList⟩ = (inner ++ [leaf (.plain s)]) :: outer := by
  cases hs : s.toList with
  | nil => exact absurd (String.toList_eq_nil_iff.1 hs) h
  | cons c cs =>
    obtain rfl : s = .ofList (c :: cs) := by rw [← hs, String.ofList_toList]
    rfl

end Reader

open Reader

theorem toList_text_node (name : NonTerminal) (children : List Tree) :
    (node name children).text.toList
      = '(' :: (name.text.toList ++ (children.flatMap (fun t => ' ' :: t.text.toList) ++ [')'])) := by
  simp [List.flatMap_map]

mutual

/-- The text of a tree, read where no word has begun, puts the tree's outline behind the trees of the innermost list,
but for the word at its end. -/
theorem exists_read_text (inner : List Tree) (outer : List (List Tree)) :
    (t : Tree) → t.Legible →
      ∃ r, read? ⟨inner :: outer, []⟩ t.text.toList = some r ∧ r.settled = (inner ++ [t.outline]) :: outer
  | leaf token, h => by
    obtain ⟨hne, hword⟩ := legible_leaf.1 h
    rw [text_leaf, outline]
    exact ⟨_, read?_word _ _ _ hword, settled_word inner outer hne⟩
  | node name children, h => by
    obtain ⟨⟨hne, hword⟩, hchildren⟩ := legible_node.1 h
    obtain ⟨r, hread, hsettled⟩ := exists_read_children (inner :: outer) children hchildren
      ⟨[] :: inner :: outer, name.text.toList⟩ _ (settled_word [] _ hne)
    have hopen : readChar? ⟨inner :: outer, []⟩ '(' = some ⟨[] :: inner :: outer, []⟩ := rfl
    have hname := read?_word ([] :: inner :: outer) [] name.text.toList hword
    have hclose : r.readChar? ')' = some ⟨(inner ++ [(node name children).outline]) :: outer, []⟩ := by
      rw [readChar?, hsettled, outline, outlineAll_eq]
      rfl
    refine ⟨_, ?_, settled_nil _⟩
    rw [toList_text_node, read?_cons, hopen, Option.bind_some, read?_append, hname, Option.bind_some, List.nil_append,
      read?_append, hread, Option.bind_some, read?_cons, hclose, Option.bind_some, read?_nil]

/-- Whatever the word before a list of children, the space in front of each ends it. -/
theorem exists_read_children (outer : List (List Tree)) :
    (ts : List Tree) → (∀ t ∈ ts, t.Legible) → (r : Reader) → (inner : List Tree) → r.settled = inner :: outer →
      ∃ r', r.read? (ts.flatMap fun t => ' ' :: t.text.toList) = some r' ∧
        r'.settled = (inner ++ ts.map outline) :: outer
  | [], _, r, inner, hr => ⟨r, rfl, by rw [hr, List.map_nil, List.append_nil]⟩
  | c :: rest, h, r, inner, hr => by
    obtain ⟨hc, hrest⟩ := List.forall_mem_cons.1 h
    obtain ⟨r', hread, hsettled⟩ := exists_read_text inner outer c hc
    obtain ⟨r'', hread', hsettled'⟩ := exists_read_children outer rest hrest r' _ hsettled
    refine ⟨r'', ?_, ?_⟩
    · have hspace : r.readChar? ' ' = some ⟨inner :: outer, []⟩ := by rw [readChar?, hr]
      rw [List.flatMap_cons, List.cons_append, read?_cons, hspace, Option.bind_some, read?_append, hread,
        Option.bind_some, hread']
    · rw [hsettled', List.append_assoc, List.singleton_append, List.map_cons]

end

/-- The one tree that a text is read as. -/
def read? (text : String) : Option Tree :=
  match (Reader.read? ⟨[[]], []⟩ text.toList).map Reader.settled with
  | some [[t]] => some t
  | _ => none

theorem read?_text {t : Tree} (h : t.Legible) : read? t.text = some t.outline := by
  obtain ⟨r, hread, hsettled⟩ := exists_read_text [] [] t h
  rw [read?, hread, Option.map_some, hsettled, List.nil_append]

/-- The leaves of a tree, taken from a stack, are those of its children from left to right. Two trees with names and
kinds that are words have the same text just if they differ in nothing but what their tokens have besides a kind. -/
theorem leaves_eq_yield_and_text_eq_iff :
    (∀ t : Tree, gather [t] [] = t.yield ∧ t.leaves = t.yield) ∧
      ∀ t u : Tree, t.Legible → u.Legible → (t.text = u.text ↔ t.outline = u.outline) := by
  refine ⟨fun t => ⟨?_, leaves_eq_yield t⟩, fun t u ht hu => ⟨fun htext => ?_, fun houtline => ?_⟩⟩
  · rw [gather_eq, List.nil_append, List.reverse_singleton, List.flatMap_singleton]
  · have hread := read?_text ht
    rw [htext, read?_text hu] at hread
    exact (Option.some.inj hread).symm
  · rw [← text_outline t, houtline, text_outline]

/-- Two tokens of the kind `number` that spell different numbers leave the text of a sum the same. -/
theorem outline_eq_of_sums :
    ∃ t u : Tree, t.Legible ∧ u.Legible ∧ t ≠ u ∧ t.text = u.text ∧ t.outline = u.outline := by
  let sum (token : Token) : Tree := node ⟨"sum"⟩ [leaf token, node ⟨"more"⟩ []]
  have ht : (sum ⟨"number", "1", none⟩).Legible := by decide +kernel
  have hu : (sum ⟨"number", "23", some ⟨1, 5⟩⟩).Legible := by decide +kernel
  have htext : (sum ⟨"number", "1", none⟩).text = (sum ⟨"number", "23", some ⟨1, 5⟩⟩).text := by decide +kernel
  exact ⟨_, _, ht, hu, by decide +kernel, htext, (leaves_eq_yield_and_text_eq_iff.2 _ _ ht hu).1 htext⟩

/-- A space in a kind is read as the end of a word. -/
example : (node ⟨"s"⟩ [leaf (.plain "a b")]).text = (node ⟨"s"⟩ [leaf (.plain "a"), leaf (.plain "b")]).text := by
  decide +kernel

end Tree

end CanonicalLR
