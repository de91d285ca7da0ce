import CanonicalLR.Collection.Distinct

/-!
# Sets that enforce one another

Inclusions say of named sets that they hold certain members or all members of another set. A pass makes
every inclusion true once, in order, each for the sets as they are when its turn comes. Members stand in
the order in which they were added, so a pass adds to the ends of sets (`get_pass_extends`). What chains
of inclusions bring into a set is what it has to hold, and passes add nothing else (`Sound.pass`).
-/

namespace CanonicalLR

open Std

universe u v

/-- What a set has to hold: given members, or all of another set. -/
inductive Source (ι : Type u) (τ : Type v) where
  | members (members : List τ)
  | setOf (name : ι)

structure Inclusion (ι : Type u) (τ : Type v) where
  target : ι
  source : Source ι τ

/-- Chains of inclusions from a given member to a set. -/
inductive Included {ι : Type u} {τ : Type v} (inclusions : List (Inclusion ι τ)) : ι → τ → Prop where
  | member {i : Inclusion ι τ} {members : List τ} {t : τ} :
    i ∈ inclusions → i.source = .members members → t ∈ members → Included inclusions i.target t
  | step {i : Inclusion ι τ} {name : ι} {t : τ} :
    i ∈ inclusions → i.source = .setOf name → Included inclusions name t → Included inclusions i.target t

/-! ### Passes -/

/-- A set for each name, where those that are not listed are empty. -/
structure Assignment (ι : Type u) (τ : Type v) [Ord ι] [Ord τ] where
  listed : TreeMap ι (KeyedSet (id : τ → τ))

variable {ι : Type u} {τ : Type v} [Ord ι] [Ord τ]

namespace Assignment

def empty : Assignment ι τ := ⟨∅⟩

def get (a : Assignment ι τ) (name : ι) : KeyedSet (id : τ → τ) := a.listed.getD name .empty

def membersOf (a : Assignment ι τ) : Source ι τ → List τ
  | .members members => members
  | .setOf name => (a.get name).toList

variable [TransOrd τ] [LawfulEqOrd τ]

/-- The assignment with one inclusion made true. -/
def enforce (a : Assignment ι τ) (i : Inclusion ι τ) : Assignment ι τ :=
  ⟨a.listed.insert i.target ((a.get i.target).insertAll (a.membersOf i.source))⟩

/-- The assignment with every inclusion made true in its turn. -/
def pass (a : Assignment ι τ) (inclusions : List (Inclusion ι τ)) : Assignment ι τ :=
  inclusions.foldl enforce a

variable [TransOrd ι] [LawfulEqOrd ι]

omit [LawfulEqOrd ι] in
theorem get_enforce_self (a : Assignment ι τ) (i : Inclusion ι τ) :
    (a.enforce i).get i.target = (a.get i.target).insertAll (a.membersOf i.source) :=
  TreeMap.getD_insert_self

theorem get_enforce_of_ne (a : Assignment ι τ) {i : Inclusion ι τ} {name : ι} (h : i.target ≠ name) :
    (a.enforce i).get name = a.get name := by
  rw [enforce, get, TreeMap.getD_insert, if_neg fun heq => h (LawfulEqCmp.eq_of_compare heq), get]

theorem get_enforce_extends (a : Assignment ι τ) (i : Inclusion ι τ) (name : ι) :
    ∃ added, ((a.enforce i).get name).toList = (a.get name).toList ++ added := by
  by_cases h : i.target = name
  · subst h
    rw [get_enforce_self]
    obtain ⟨added, hadded, -⟩ := (a.get i.target).toList_insertAll_extends (a.membersOf i.source)
    exact ⟨added, hadded⟩
  · exact ⟨[], by rw [get_enforce_of_ne a h, List.append_nil]⟩

theorem get_pass_extends (a : Assignment ι τ) (inclusions : List (Inclusion ι τ)) (name : ι) :
    ∃ added, ((a.pass inclusions).get name).toList = (a.get name).toList ++ added := by
  induction inclusions generalizing a with
  | nil => exact ⟨[], (List.append_nil _).symm⟩
  | cons i rest ih =>
    obtain ⟨first, hfirst⟩ := a.get_enforce_extends i name
    obtain ⟨later, hlater⟩ := ih (a.enforce i)
    exact ⟨first ++ later, by rw [pass, List.foldl_cons, ← pass, hlater, hfirst, List.append_assoc]⟩

theorem mem_get_enforce_iff {a : Assignment ι τ} {i : Inclusion ι τ} {name : ι} {t : τ} :
    t ∈ ((a.enforce i).get name).toList
      ↔ (i.target = name ∧ t ∈ a.membersOf i.source) ∨ t ∈ (a.get name).toList := by
  by_cases h : i.target = name
  · subst h
    rw [get_enforce_self, KeyedSet.mem_insertAll, and_iff_right rfl]
  · rw [get_enforce_of_ne a h, or_iff_right fun hleft => h hleft.1]

theorem mem_get_pass_of_mem {a : Assignment ι τ} {inclusions : List (Inclusion ι τ)} {name : ι} {t : τ}
    (h : t ∈ (a.get name).toList) : t ∈ ((a.pass inclusions).get name).toList := by
  obtain ⟨added, hadded⟩ := a.get_pass_extends inclusions name
  rw [hadded]
  exact List.mem_append_left _ h

theorem mem_membersOf_enforce {a : Assignment ι τ} (i : Inclusion ι τ) {source : Source ι τ} {t : τ}
    (h : t ∈ a.membersOf source) : t ∈ (a.enforce i).membersOf source := by
  cases source with
  | members => exact h
  | setOf name => exact mem_get_enforce_iff.2 (.inr h)

/-- After a pass every inclusion is true of the members that its source had before. -/
theorem mem_get_pass {a : Assignment ι τ} {inclusions : List (Inclusion ι τ)} {i : Inclusion ι τ} {t : τ}
    (hi : i ∈ inclusions) (ht : t ∈ a.membersOf i.source) :
    t ∈ ((a.pass inclusions).get i.target).toList := by
  induction inclusions generalizing a with
  | nil => exact absurd hi List.not_mem_nil
  | cons j rest ih =>
    rw [pass, List.foldl_cons, ← pass]
    rcases List.mem_cons.1 hi with rfl | hi
    · exact mem_get_pass_of_mem (mem_get_enforce_iff.2 (.inl ⟨rfl, ht⟩))
    · exact ih hi (mem_membersOf_enforce j ht)

/-- The sets hold nothing but what chains of inclusions bring into them. -/
def Sound (inclusions : List (Inclusion ι τ)) (a : Assignment ι τ) : Prop :=
  ∀ name, ∀ t ∈ (a.get name).toList, Included inclusions name t

omit [TransOrd τ] [LawfulEqOrd τ] [LawfulEqOrd ι] in
theorem sound_empty (inclusions : List (Inclusion ι τ)) : Sound inclusions (empty : Assignment ι τ) := by
  intro name t ht
  rw [get, empty, TreeMap.getD_emptyc] at ht
  exact absurd ht List.not_mem_nil

theorem Sound.enforce {inclusions : List (Inclusion ι τ)} {a : Assignment ι τ} (h : Sound inclusions a)
    {i : Inclusion ι τ} (hi : i ∈ inclusions) : Sound inclusions (a.enforce i) := by
  intro name t ht
  rcases mem_get_enforce_iff.1 ht with ⟨rfl, hgiven⟩ | hheld
  · cases hsource : i.source with
    | members members =>
      rw [hsource] at hgiven
      exact .member hi hsource hgiven
    | setOf other =>
      rw [hsource] at hgiven
      exact .step hi hsource (h other t hgiven)
  · exact h name t hheld

theorem Sound.pass {inclusions more : List (Inclusion ι τ)} {a : Assignment ι τ} (h : Sound inclusions a)
    (hmore : more ⊆ inclusions) : Sound inclusions (a.pass more) := by
  induction more generalizing a with
  | nil => exact h
  | cons i rest ih =>
    have hrest : rest ⊆ inclusions := fun j hj => hmore (List.mem_cons_of_mem _ hj)
    exact ih (h.enforce (hmore List.mem_cons_self)) hrest

end Assignment

end CanonicalLR
