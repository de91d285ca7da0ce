import CanonicalLR.Automaton
import Mathlib.Data.List.Induction
import Std.Data.HashMap.Lemmas

/-!
# The first value of each key

A set told apart by keys keeps of the values that are added those which are the first with their key. This is plainly what a list does to which a value is added unless the list holds its key already (`enlist`): the values that remain are the first of their keys (`addEach_enlist`), and one place for each key is known. A set that keeps its values in an array and looks keys up in an index beside it follows the list step by step, because the index says of each key the place that a search of the array would find (`HashedSet.Lists`). For the index it is enough that equal keys have equal hashes; where keys are ordered, a search tree does as well, and both kinds of sets answer alike in everything (`adds_keep_firsts`).
-/

namespace CanonicalLR

open Std

universe u v w x

variable {α : Type u} {κ : Type v} {σ : Type w} {β : Type x}

/-- The values are added one after the other: the last state, and the answers in order. -/
def addEach (add : σ → α → σ × β) (s : σ) : List α → σ × List β
  | [] => (s, [])
  | x :: rest =>
    let next := add s x
    ((addEach add next.1 rest).1, next.2 :: (addEach add next.1 rest).2)

theorem addEach_append (add : σ → α → σ × β) (s : σ) (xs ys : List α) : addEach add s (xs ++ ys)
    = ((addEach add (addEach add s xs).1 ys).1, (addEach add s xs).2 ++ (addEach add (addEach add s xs).1 ys).2) := by
  induction xs generalizing s with
  | nil => rfl
  | cons x rest ih =>
    rw [List.cons_append, addEach, ih]
    rfl

theorem addEach_concat (add : σ → α → σ × β) (s : σ) (xs : List α) (x : α) : addEach add s (xs ++ [x])
    = ((add (addEach add s xs).1 x).1, (addEach add s xs).2 ++ [(add (addEach add s xs).1 x).2]) :=
  addEach_append add s xs [x]

theorem length_addEach (add : σ → α → σ × β) (s : σ) (xs : List α) : (addEach add s xs).2.length = xs.length := by
  induction xs generalizing s with
  | nil => rfl
  | cons x rest ih => rw [addEach, List.length_cons, ih, List.length_cons]

/-! ### A list without repeated keys -/

section Lists

variable [BEq κ] {key : α → κ} {l xs : List α} {x : α} {k : κ} {place : Nat}

/-- The values with whose keys no earlier value came. -/
def firsts (key : α → κ) (xs : List α) : List α :=
  (xs.zipIdx.filter fun (x, place) => !(xs.take place).any (key · == key x)).map Prod.fst

/-- The list with `x`, unless it holds the key of `x`; the place of the value with this key, and whether that is `x`
itself, newly added. -/
def enlist (key : α → κ) (l : List α) (x : α) : List α × Nat × Bool :=
  match l.findIdx? (key · == key x) with
  | some place => (l, place, false)
  | none => (l ++ [x], l.length, true)

theorem enlist_of_some (h : l.findIdx? (key · == key x) = some place) : enlist key l x = (l, place, false) := by
  rw [enlist, h]

theorem enlist_of_none (h : l.findIdx? (key · == key x) = none) : enlist key l x = (l ++ [x], l.length, true) := by
  rw [enlist, h]

theorem enlist_fst (key : α → κ) (l : List α) (x : α) :
    (enlist key l x).1 = if l.any (key · == key x) then l else l ++ [x] := by
  rw [← List.findIdx?_isSome]
  cases h : l.findIdx? (key · == key x) with
  | some place => rw [enlist_of_some h, Option.isSome_some, if_pos rfl]
  | none => rw [enlist_of_none h, Option.isSome_none, if_neg Bool.false_ne_true]

theorem isNew_enlist (key : α → κ) (l : List α) (x : α) : (enlist key l x).2.2 = !l.any (key · == key x) := by
  rw [← List.findIdx?_isSome]
  cases h : l.findIdx? (key · == key x) with
  | some place => rw [enlist_of_some h, Option.isSome_some, Bool.not_true]
  | none => rw [enlist_of_none h, Option.isSome_none, Bool.not_false]

theorem firsts_concat (key : α → κ) (xs : List α) (x : α) :
    firsts key (xs ++ [x]) = if xs.any (key · == key x) then firsts key xs else firsts key xs ++ [x] := by
  have hearlier : (xs.zipIdx.filter fun (y, place) => !((xs ++ [x]).take place).any (key · == key y))
      = xs.zipIdx.filter fun (y, place) => !(xs.take place).any (key · == key y) := by
    apply List.filter_congr
    intro (y, place) hy
    have hplace : place < xs.length := by simpa using (List.mem_zipIdx hy).2.1
    simp only [List.take_append_of_le_length (Nat.le_of_lt hplace)]
  rw [firsts, List.zipIdx_append, List.filter_append, List.map_append, hearlier, ← firsts, Nat.zero_add,
    List.zipIdx_singleton]
  by_cases h : xs.any (key · == key x) = true
  · simp [h]
  · simp [h]

theorem exists_firsts_append (key : α → κ) (xs ys : List α) : ∃ more, firsts key (xs ++ ys) = firsts key xs ++ more := by
  induction ys using List.reverseRecOn with
  | nil => exact ⟨[], by rw [List.append_nil, List.append_nil]⟩
  | append_singleton ys y ih =>
    obtain ⟨more, hmore⟩ := ih
    rw [← List.append_assoc, firsts_concat, hmore]
    split
    · exact ⟨more, rfl⟩
    · exact ⟨more ++ [y], List.append_assoc ..⟩

variable [EquivBEq κ]

theorem findIdx?_enlist (key : α → κ) (l : List α) (x : α) :
    (enlist key l x).1.findIdx? (key · == key x) = some (enlist key l x).2.1 := by
  cases h : l.findIdx? (key · == key x) with
  | some place => rw [enlist_of_some h, h]
  | none =>
    rw [enlist_of_none h, List.findIdx?_append, h]
    simp

/-- Dropping later values of a key loses no key. -/
theorem any_firsts (key : α → κ) (xs : List α) (k : κ) :
    (firsts key xs).any (key · == k) = xs.any (key · == k) := by
  induction xs using List.reverseRecOn with
  | nil => rfl
  | append_singleton xs x ih =>
    rw [firsts_concat, List.any_append, ← ih]
    split
    · rename_i hold
      by_cases hk : (key x == k) = true
      · have hsame : xs.any (key · == k) = xs.any (key · == key x) := by simp only [BEq.congr_right hk]
        rw [ih, hsame, hold, Bool.true_or]
      · simp [hk]
    · rw [List.any_append]

theorem addEach_enlist (key : α → κ) (xs : List α) : (addEach (enlist key) [] xs).1 = firsts key xs := by
  induction xs using List.reverseRecOn with
  | nil => rfl
  | append_singleton xs x ih => rw [addEach_concat, ih, enlist_fst, any_firsts, firsts_concat]

/-- Each answer is the place of the key among the values that remain in the end, and whether the key was new. -/
theorem answer_addEach_enlist (h : xs[place]? = some x) : ∃ found,
    (addEach (enlist key) [] xs).2[place]? = some (found, !(xs.take place).any (key · == key x))
      ∧ (firsts key xs).findIdx? (key · == key x) = some found := by
  induction xs using List.reverseRecOn with
  | nil => cases h
  | append_singleton xs y ih =>
    have hlength := length_addEach (enlist key) [] xs
    rw [addEach_concat, addEach_enlist]
    by_cases hlt : place < xs.length
    · rw [List.getElem?_append_left hlt] at h
      obtain ⟨found, hanswer, hfound⟩ := ih h
      obtain ⟨more, hmore⟩ := exists_firsts_append key xs [y]
      refine ⟨found, ?_, by rw [hmore, List.findIdx?_append, hfound, Option.some_or]⟩
      rw [List.getElem?_append_left (hlength ▸ hlt), hanswer, List.take_append_of_le_length (Nat.le_of_lt hlt)]
    · obtain rfl : place = xs.length := by
        have := (List.getElem?_eq_some_iff.1 h).1
        rw [List.length_append, List.length_singleton] at this
        omega
      obtain rfl : y = x := by simpa using h
      refine ⟨(enlist key (firsts key xs) y).2.1, ?_, ?_⟩
      · rw [← hlength, List.getElem?_concat_length, hlength, List.take_left, ← any_firsts, ← isNew_enlist]
      · rw [firsts_concat, ← any_firsts, ← enlist_fst, findIdx?_enlist]

end Lists

/-! ### Sets that track a list -/

/-- Adding to a set does to the values that it holds what adding to a list does, and gives the same answer. -/
def Tracks [BEq κ] (key : α → κ) (holds : σ → List α → Prop) (add : σ → α → σ × Nat × Bool) : Prop :=
  ∀ s l x, holds s l → holds (add s x).1 (enlist key l x).1 ∧ (add s x).2 = (enlist key l x).2

theorem Tracks.addEach [BEq κ] {key : α → κ} {holds : σ → List α → Prop} {add : σ → α → σ × Nat × Bool}
    (h : Tracks key holds add) {s : σ} {l : List α} (hs : holds s l) (xs : List α) :
    holds (addEach add s xs).1 (CanonicalLR.addEach (enlist key) l xs).1
      ∧ (CanonicalLR.addEach add s xs).2 = (CanonicalLR.addEach (enlist key) l xs).2 := by
  induction xs generalizing s l with
  | nil => exact ⟨hs, rfl⟩
  | cons x rest ih =>
    obtain ⟨hnext, hanswer⟩ := h s l x hs
    obtain ⟨hlast, hanswers⟩ := ih hnext
    exact ⟨hlast, congrArg₂ List.cons hanswer hanswers⟩

/-- What is said by a set that holds the values `l` in this order. -/
structure Answers [BEq κ] (key : α → κ) (l : List α) (toList : List α) (size : Nat) (get? : Nat → Option α)
    (indexOf? : α → Option Nat) (contains : α → Bool) (withKey? : κ → Option α) : Prop where
  toList_eq : toList = l
  size_eq : size = l.length
  get?_eq : ∀ place, get? place = l[place]?
  indexOf?_eq : ∀ x, indexOf? x = l.findIdx? (key · == key x)
  contains_eq : ∀ x, contains x = l.any (key · == key x)
  withKey?_eq : ∀ k, withKey? k = l.find? (key · == k)

/-- Of the values that are added, the first of each key remain, in order, and whatever is asked is answered from them.
Each answer to an addition was the place of the key among the values that remain, and whether no value had come with
the key before. Later additions leave the value at a place as it is. -/
structure KeepsFirsts [BEq κ] (key : α → κ) (start : σ) (add : σ → α → σ × Nat × Bool) (get? : σ → Nat → Option α)
    (shows : σ → List α → Prop) : Prop where
  remaining : ∀ xs, shows (addEach add start xs).1 (firsts key xs)
  answered : ∀ xs time x, xs[time]? = some x → ∃ place,
    (addEach add start xs).2[time]? = some (place, !(xs.take time).any (key · == key x)) ∧
    (firsts key xs).findIdx? (key · == key x) = some place
  stays : ∀ xs more place x, get? (addEach add start xs).1 place = some x →
    get? (addEach add start (xs ++ more)).1 place = some x

theorem Tracks.keepsFirsts [BEq κ] [EquivBEq κ] {key : α → κ} {holds shows : σ → List α → Prop} {start : σ}
    {add : σ → α → σ × Nat × Bool} {get? : σ → Nat → Option α} (h : Tracks key holds add) (hstart : holds start [])
    (hshows : ∀ s l, holds s l → shows s l) (hget : ∀ s l, shows s l → ∀ place, get? s place = l[place]?) :
    KeepsFirsts key start add get? shows := by
  have hremaining (xs : List α) : shows (CanonicalLR.addEach add start xs).1 (firsts key xs) := by
    rw [← addEach_enlist]
    exact hshows _ _ (h.addEach hstart xs).1
  refine ⟨hremaining, fun xs time x hx => ?_, fun xs more place x hx => ?_⟩
  · rw [(h.addEach hstart xs).2]
    exact answer_addEach_enlist hx
  · obtain ⟨behind, hbehind⟩ := exists_firsts_append key xs more
    rw [hget _ _ (hremaining xs)] at hx
    rw [hget _ _ (hremaining (xs ++ more)), hbehind, List.getElem?_append_left (List.getElem?_eq_some_iff.1 hx).1, hx]

/-! ### An array with a hash index -/

/-- Values in the order in which they first came, and for each key the place of its value. -/
structure HashedSet [BEq κ] [Hashable κ] (key : α → κ) where
  values : Array α
  index : HashMap κ Nat

namespace HashedSet

variable [BEq κ] [Hashable κ] {key : α → κ} {s : HashedSet key} {l : List α}

def empty : HashedSet key := ⟨#[], ∅⟩

/-- The set with `x`, the place of the value with the key of `x`, and whether that is `x` itself, newly added. -/
def add (s : HashedSet key) (x : α) : HashedSet key × Nat × Bool :=
  match s.index[key x]? with
  | some place => (s, place, false)
  | none => (⟨s.values.push x, s.index.insert (key x) s.values.size⟩, s.values.size, true)

/-- The values in the order of their keys' first coming. -/
def toList (s : HashedSet key) : List α := s.values.toList

def size (s : HashedSet key) : Nat := s.values.size

def get? (s : HashedSet key) (place : Nat) : Option α := s.values[place]?

def indexOf? (s : HashedSet key) (x : α) : Option Nat := s.index[key x]?

def contains (s : HashedSet key) (x : α) : Bool := s.index.contains (key x)

def withKey? (s : HashedSet key) (k : κ) : Option α := (s.index[k]?).bind s.get?

/-- The array holds the values of the list, and the index finds each key where it first stands in it. -/
structure Lists (s : HashedSet key) (l : List α) : Prop where
  toList_eq : s.toList = l
  index_eq : ∀ k, s.index[k]? = l.findIdx? (key · == k)

theorem Lists.size_eq (h : s.Lists l) : s.values.size = l.length := by rw [← h.toList_eq, toList, Array.length_toList]

theorem Lists.get?_eq (h : s.Lists l) (place : Nat) : s.get? place = l[place]? := by
  rw [get?, ← h.toList_eq, toList, Array.getElem?_toList]

theorem lists_empty : (empty : HashedSet key).Lists [] := ⟨rfl, fun _ => HashMap.getElem?_empty⟩

variable [EquivBEq κ] [LawfulHashable κ]

theorem Lists.push (h : s.Lists l) {x : α} (hnew : l.findIdx? (key · == key x) = none) :
    (⟨s.values.push x, s.index.insert (key x) s.values.size⟩ : HashedSet key).Lists (l ++ [x]) where
  toList_eq := by rw [toList, Array.toList_push, ← toList, h.toList_eq]
  index_eq k := by
    show (s.index.insert (key x) s.values.size)[k]? = _
    rw [HashMap.getElem?_insert, h.index_eq, List.findIdx?_append, h.size_eq]
    by_cases hk : (key x == k) = true
    · have hnone : l.findIdx? (key · == k) = none := by rw [← hnew]; simp only [BEq.congr_right hk]
      simp [hk, hnone]
    · simp [hk]

theorem tracks_lists : Tracks key Lists (add : HashedSet key → α → HashedSet key × Nat × Bool) := by
  intro s l x h
  have hindex := h.index_eq (key x)
  cases hfind : l.findIdx? (key · == key x) with
  | some place =>
    rw [hfind] at hindex
    rw [enlist_of_some hfind, add, hindex]
    exact ⟨h, rfl⟩
  | none =>
    rw [hfind] at hindex
    rw [enlist_of_none hfind, add, hindex, h.size_eq]
    exact ⟨h.size_eq ▸ h.push hfind, rfl⟩

theorem Lists.answers (h : s.Lists l) :
    Answers key l s.toList s.size s.get? s.indexOf? s.contains s.withKey? where
  toList_eq := h.toList_eq
  size_eq := h.size_eq
  get?_eq := h.get?_eq
  indexOf?_eq x := h.index_eq (key x)
  contains_eq x := by rw [contains, HashMap.contains_eq_isSome_getElem?, h.index_eq, List.findIdx?_isSome]
  withKey?_eq k := by
    rw [withKey?, h.index_eq, List.find?_eq_bind_findIdx?_getElem?, funext h.get?_eq]

end HashedSet

/-! ### An array with an ordered index -/

namespace KeyedSet

variable [BEq κ] [LawfulBEq κ] [Ord κ] [TransOrd κ] [LawfulEqOrd κ] {key : α → κ} {s : KeyedSet key} {l : List α}

theorem positionOf?_eq_findIdx? (s : KeyedSet key) (k : κ) : s.positionOf? k = s.toList.findIdx? (key · == k) := by
  cases h : s.toList.findIdx? (key · == k) with
  | some place =>
    obtain ⟨hlt, hkey, -⟩ := List.findIdx?_eq_some_iff_getElem.1 h
    rw [positionOf?_eq_some_iff, List.getElem?_map, List.getElem?_eq_getElem hlt, Option.map_some, eq_of_beq hkey]
  | none =>
    rw [positionOf?_eq_none_iff, List.mem_map]
    intro ⟨x, hx, hkey⟩
    exact absurd (List.findIdx?_eq_none_iff.1 h x hx) (by simp [hkey])

theorem tracks_toList : Tracks key (fun s l => s.toList = l) (add : KeyedSet key → α → KeyedSet key × Nat × Bool) := by
  intro s l x hl
  subst hl
  have hposition := s.positionOf?_eq_findIdx? (key x)
  cases hfind : s.toList.findIdx? (key · == key x) with
  | some place =>
    rw [enlist_of_some hfind, add_of_positionOf? (hposition.trans hfind)]
    exact ⟨rfl, rfl⟩
  | none =>
    have hnone := hposition.trans hfind
    rw [enlist_of_none hfind, add_of_positionOf?_none hnone]
    exact ⟨toList_push s x hnone, rfl⟩

theorem answers_toList (s : KeyedSet key) :
    Answers key s.toList s.toList s.size s.get? s.indexOf? s.contains s.withKey? where
  toList_eq := rfl
  size_eq := s.size_eq
  get?_eq := s.get?_eq
  indexOf?_eq x := s.positionOf?_eq_findIdx? (key x)
  contains_eq x := by rw [contains, indexOf?, positionOf?_eq_findIdx?, List.findIdx?_isSome]
  withKey?_eq k := by
    rw [withKey?, positionOf?_eq_findIdx?, List.find?_eq_bind_findIdx?_getElem?, funext s.get?_eq]

end KeyedSet

/-! ### What remains of the values that are added -/

/-- A set with a hash index keeps the first value of each key, and so does a set with an ordered index, with the same
answers. -/
theorem adds_keep_firsts [BEq κ] [EquivBEq κ] [Hashable κ] [LawfulHashable κ] (key : α → κ) :
    KeepsFirsts key (HashedSet.empty : HashedSet key) HashedSet.add HashedSet.get? (fun s l =>
      Answers key l s.toList s.size s.get? s.indexOf? s.contains s.withKey?) ∧
    ∀ [LawfulBEq κ] [Ord κ] [TransOrd κ] [LawfulEqOrd κ],
      KeepsFirsts key (KeyedSet.empty : KeyedSet key) KeyedSet.add KeyedSet.get? (fun s l =>
        Answers key l s.toList s.size s.get? s.indexOf? s.contains s.withKey?) ∧
      ∀ xs, (addEach KeyedSet.add (KeyedSet.empty : KeyedSet key) xs).2
        = (addEach HashedSet.add (HashedSet.empty : HashedSet key) xs).2 := by
  constructor
  · exact HashedSet.tracks_lists.keepsFirsts HashedSet.lists_empty (fun _ _ h => h.answers) fun _ _ h => h.get?_eq
  · intro _ _ _ _
    constructor
    · refine KeyedSet.tracks_toList.keepsFirsts KeyedSet.toList_empty (fun s l h => ?_) fun _ _ h => h.get?_eq
      exact h ▸ s.answers_toList
    · intro xs
      rw [(KeyedSet.tracks_toList.addEach KeyedSet.toList_empty xs).2,
        (HashedSet.tracks_lists.addEach HashedSet.lists_empty xs).2]

deriving instance Hashable for Terminal, NonTerminal, Symbol

/-- The second transition of a state on a symbol is not kept, although it leads elsewhere. -/
theorem adds_keep_firsts_transitions :
    let written : List Transition := [⟨0, .terminal ⟨"a"⟩, 1⟩, ⟨0, .terminal ⟨"a"⟩, 2⟩, ⟨0, .nonterminal ⟨"a"⟩, 2⟩]
    let added := addEach HashedSet.add (HashedSet.empty : HashedSet Transition.key) written
    added.1.toList = [⟨0, .terminal ⟨"a"⟩, 1⟩, ⟨0, .nonterminal ⟨"a"⟩, 2⟩] ∧ added.2[1]? = some (0, false) ∧
    added.1.withKey? (0, .terminal ⟨"a"⟩) = some ⟨0, .terminal ⟨"a"⟩, 1⟩ ∧
    (addEach KeyedSet.add (KeyedSet.empty : KeyedSet Transition.key) written).1.toList = added.1.toList := by
  intro written added
  obtain ⟨hhashed, hordered⟩ := adds_keep_firsts Transition.key
  have hremaining := hhashed.remaining written
  have hfirsts : firsts Transition.key written
      = [⟨0, .terminal ⟨"a"⟩, 1⟩, ⟨0, .nonterminal ⟨"a"⟩, 2⟩] := by decide
  obtain ⟨place, hanswer, hplace⟩ := hhashed.answered written 1 _ rfl
  obtain rfl : place = 0 := Option.some.inj (hplace.symm.trans (by decide))
  refine ⟨hremaining.toList_eq.trans hfirsts, hanswer.trans (by decide), ?_, ?_⟩
  · exact (hremaining.withKey?_eq _).trans (by decide)
  · exact (hordered.1.remaining written).toList_eq.trans hremaining.toList_eq.symm

end CanonicalLR
