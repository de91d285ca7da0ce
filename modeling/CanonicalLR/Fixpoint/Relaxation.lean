import CanonicalLR.Fixpoint.Inclusion

/-!
# Relaxation

The least sets of which inclusions are true are found by passes. Every set starts empty, a pass that adds
something is followed by another one, and the pass that adds nothing is the last and is counted
(`converged_solve`). A pass sets a mark when a target changes its size, which tells whether it has added
something (`snd_passMarked`).

How far a member spreads in a pass depends only on the sets that hold it already. A pass in which it
enters no set is therefore its last, and each pass before has put it into one set more. So no more passes
add something than there are targets (`lt_length_of_grows`), which is why the process ends. Main
statement: a set of the solution holds exactly what chains of inclusions bring into it (`mem_solve_iff`).
-/

namespace CanonicalLR

open Std

universe u v

/-- Sets of which inclusions are true, and how many passes were made. -/
structure Solution (ι : Type u) (τ : Type v) [Ord ι] [Ord τ] where
  sets : Assignment ι τ
  passes : Nat

variable {ι : Type u} {τ : Type v} [Ord ι] [Ord τ] [TransOrd ι] [LawfulEqOrd ι] [TransOrd τ] [LawfulEqOrd τ]

namespace Assignment

variable {a b : Assignment ι τ} {inclusions : List (Inclusion ι τ)} {names : List ι} {t : τ} {p : Nat}

/-- The sets after so many passes. -/
def after (inclusions : List (Inclusion ι τ)) : Nat → Assignment ι τ
  | 0 => empty
  | n + 1 => (after inclusions n).pass inclusions

theorem sound_after (inclusions : List (Inclusion ι τ)) (p : Nat) : Sound inclusions (after inclusions p) := by
  induction p with
  | zero => exact sound_empty inclusions
  | succ p ih => exact ih.pass (List.Subset.refl _)

/-- A pass adds something to a set. -/
def Grows (a : Assignment ι τ) (inclusions : List (Inclusion ι τ)) : Prop :=
  ∃ name, ((a.pass inclusions).get name).toList ≠ (a.get name).toList

omit [TransOrd ι] [LawfulEqOrd ι] in
theorem get_pass_of_not_grows (h : ¬ a.Grows inclusions) (name : ι) : (a.pass inclusions).get name = a.get name :=
  KeyedSet.ext_toList (Classical.byContradiction fun hne => h ⟨name, hne⟩)

/-! ### How far a member spreads -/

/-- The same sets hold the member. -/
def AgreeOn (t : τ) (a b : Assignment ι τ) : Prop :=
  ∀ name, t ∈ (a.get name).toList ↔ t ∈ (b.get name).toList

omit [TransOrd ι] [LawfulEqOrd ι] [TransOrd τ] [LawfulEqOrd τ] in
theorem AgreeOn.membersOf (h : AgreeOn t a b) (source : Source ι τ) :
    t ∈ a.membersOf source ↔ t ∈ b.membersOf source := by
  cases source with
  | members members => exact Iff.rfl
  | setOf name => exact h name

theorem AgreeOn.enforce (h : AgreeOn t a b) (i : Inclusion ι τ) : AgreeOn t (a.enforce i) (b.enforce i) := by
  intro name
  rw [mem_get_enforce_iff, mem_get_enforce_iff, h.membersOf, h name]

theorem AgreeOn.pass (h : AgreeOn t a b) : AgreeOn t (a.pass inclusions) (b.pass inclusions) := by
  induction inclusions generalizing a b with
  | nil => exact h
  | cons i rest ih => exact ih (h.enforce i)

/-- The member enters a set in the pass behind the first `p`. -/
def Spreads (inclusions : List (Inclusion ι τ)) (t : τ) (p : Nat) : Prop :=
  ∃ name, t ∈ ((after inclusions (p + 1)).get name).toList ∧ t ∉ ((after inclusions p).get name).toList

theorem agreeOn_of_not_spreads (h : ¬ Spreads inclusions t p) :
    AgreeOn t (after inclusions p) (after inclusions (p + 1)) := by
  intro name
  constructor
  · exact mem_get_pass_of_mem
  · intro hnew
    exact Classical.byContradiction fun hold => h ⟨name, hnew, hold⟩

theorem Spreads.earlier (h : Spreads inclusions t (p + 1)) : Spreads inclusions t p := by
  apply Classical.byContradiction
  intro hnot
  obtain ⟨name, hnew, hold⟩ := h
  have hagree : AgreeOn t (after inclusions (p + 1)) (after inclusions (p + 2)) :=
    (agreeOn_of_not_spreads hnot).pass
  exact hold ((hagree name).2 hnew)

/-- Each pass up to here has put the member into one set more. -/
theorem Spreads.exists_holders (h : Spreads inclusions t p) : ∃ holders : List ι, holders.Nodup
    ∧ holders.length = p + 1 ∧ ∀ name ∈ holders, t ∈ ((after inclusions (p + 1)).get name).toList := by
  induction p with
  | zero =>
    obtain ⟨name, hnew, -⟩ := h
    refine ⟨[name], List.nodup_cons.2 ⟨List.not_mem_nil, .nil⟩, rfl, fun other hother => ?_⟩
    exact List.mem_singleton.1 hother ▸ hnew
  | succ p ih =>
    obtain ⟨holders, hnodup, hlength, hholders⟩ := ih h.earlier
    obtain ⟨name, hnew, hold⟩ := h
    -- the set that it enters now did not hold it after the earlier passes
    have hfresh : name ∉ holders := fun hmem => hold (hholders name hmem)
    refine ⟨name :: holders, List.nodup_cons.2 ⟨hfresh, hnodup⟩, by rw [List.length_cons, hlength], ?_⟩
    intro other hother
    rcases List.mem_cons.1 hother with rfl | hother
    · exact hnew
    · exact mem_get_pass_of_mem (hholders other hother)

theorem exists_spreads_of_grows (h : (after inclusions p).Grows inclusions) : ∃ t, Spreads inclusions t p := by
  obtain ⟨name, hname⟩ := h
  obtain ⟨added, hadded⟩ := (after inclusions p).get_pass_extends inclusions name
  have hnodup := KeyedSet.nodup_toList ((after inclusions (p + 1)).get name)
  rw [after, hadded] at hnodup
  cases added with
  | nil => exact absurd (hadded.trans (List.append_nil _)) hname
  | cons t more =>
    refine ⟨t, name, ?_, fun hold => ?_⟩
    · rw [after, hadded]
      exact List.mem_append_right _ List.mem_cons_self
    · exact (List.nodup_append.1 hnodup).2.2 t hold t List.mem_cons_self rfl

/-- A pass that adds something has fewer passes before it than there are targets. -/
theorem lt_length_of_grows (htargets : ∀ i ∈ inclusions, i.target ∈ names)
    (h : (after inclusions p).Grows inclusions) : p < names.length := by
  obtain ⟨t, ht⟩ := exists_spreads_of_grows h
  obtain ⟨holders, hnodup, hlength, hholders⟩ := ht.exists_holders
  have hsubset : holders ⊆ names := by
    intro name hname
    cases sound_after inclusions (p + 1) name t (hholders name hname) with
    | member hi => exact htargets _ hi
    | step hi => exact htargets _ hi
  have hle := List.Nodup.length_le_of_subset hnodup hsubset
  omega

/-! ### The mark of a pass -/

/-- Makes one inclusion true, and sets the mark when the target has changed its size. -/
def enforceMarked (swept : Assignment ι τ × Bool) (i : Inclusion ι τ) : Assignment ι τ × Bool :=
  let more := swept.1.enforce i
  (more, swept.2 || (swept.1.get i.target).size != (more.get i.target).size)

/-- A pass that starts without the mark. -/
def passMarked (a : Assignment ι τ) (inclusions : List (Inclusion ι τ)) : Assignment ι τ × Bool :=
  inclusions.foldl enforceMarked (a, false)

theorem size_le_pass (a : Assignment ι τ) (inclusions : List (Inclusion ι τ)) (name : ι) :
    (a.get name).size ≤ ((a.pass inclusions).get name).size := by
  obtain ⟨added, hadded⟩ := a.get_pass_extends inclusions name
  rw [KeyedSet.size_eq, KeyedSet.size_eq, hadded, List.length_append]
  exact Nat.le_add_right _ _

theorem grows_iff_size_lt :
    a.Grows inclusions ↔ ∃ name, (a.get name).size < ((a.pass inclusions).get name).size := by
  refine exists_congr fun name => ?_
  obtain ⟨added, hadded⟩ := a.get_pass_extends inclusions name
  rw [KeyedSet.size_eq, KeyedSet.size_eq, hadded, List.length_append, ne_eq, List.append_right_eq_self,
    ← List.length_eq_zero_iff]
  omega

theorem grows_singleton_iff {i : Inclusion ι τ} :
    a.Grows [i] ↔ (a.get i.target).size ≠ ((a.enforce i).get i.target).size := by
  rw [grows_iff_size_lt]
  constructor
  · intro h
    obtain ⟨name, hlt⟩ := h
    by_cases hname : i.target = name
    · subst hname
      exact Nat.ne_of_lt hlt
    · have hsame : ((a.pass [i]).get name) = a.get name := get_enforce_of_ne a hname
      rw [hsame] at hlt
      exact absurd hlt (Nat.lt_irrefl _)
  · intro h
    exact ⟨i.target, Nat.lt_of_le_of_ne (a.size_le_pass [i] i.target) h⟩

theorem grows_cons_iff {i : Inclusion ι τ} {rest : List (Inclusion ι τ)} :
    a.Grows (i :: rest) ↔ a.Grows [i] ∨ (a.enforce i).Grows rest := by
  have hfirst (name : ι) : (a.get name).size ≤ ((a.enforce i).get name).size := a.size_le_pass [i] name
  have hlater (name : ι) : ((a.enforce i).get name).size ≤ (((a.enforce i).pass rest).get name).size :=
    (a.enforce i).size_le_pass rest name
  simp only [grows_iff_size_lt]
  constructor
  · intro h
    obtain ⟨name, hlt⟩ := h
    rcases Nat.lt_or_ge (a.get name).size ((a.enforce i).get name).size with hgrown | hsame
    · exact .inl ⟨name, hgrown⟩
    · exact .inr ⟨name, Nat.lt_of_le_of_lt hsame hlt⟩
  · intro h
    rcases h with ⟨name, hlt⟩ | ⟨name, hlt⟩
    · exact ⟨name, Nat.lt_of_lt_of_le hlt (hlater name)⟩
    · exact ⟨name, Nat.lt_of_le_of_lt (hfirst name) hlt⟩

theorem foldl_enforceMarked (a : Assignment ι τ) (mark : Bool) (inclusions : List (Inclusion ι τ)) :
    (inclusions.foldl enforceMarked (a, mark)).1 = a.pass inclusions
      ∧ ((inclusions.foldl enforceMarked (a, mark)).2 = true ↔ mark = true ∨ a.Grows inclusions) := by
  -- the mark stays once it is set, so the rest of a pass starts with any mark
  induction inclusions generalizing a mark with
  | nil =>
    have hnot : ¬ a.Grows [] := fun h => h.choose_spec rfl
    exact ⟨rfl, (or_iff_left hnot).symm⟩
  | cons i rest ih =>
    obtain ⟨hpass, hmark⟩ := ih (a.enforce i) (enforceMarked (a, mark) i).2
    refine ⟨hpass, hmark.trans ?_⟩
    rw [grows_cons_iff, ← or_assoc, grows_singleton_iff]
    simp [enforceMarked]

theorem fst_passMarked : (a.passMarked inclusions).1 = a.pass inclusions :=
  (foldl_enforceMarked a false inclusions).1

theorem snd_passMarked : (a.passMarked inclusions).2 = true ↔ a.Grows inclusions := by
  rw [passMarked, (foldl_enforceMarked a false inclusions).2, or_iff_right Bool.false_ne_true]

/-! ### The solution -/

/-- Passes from `a` on until one ends without the mark, where `passes` have been made. -/
def solveFrom (inclusions : List (Inclusion ι τ)) (a : Assignment ι τ) (passes : Nat)
    (h : a = after inclusions passes) : Solution ι τ :=
  let swept := a.passMarked inclusions
  if hmark : swept.2 = true then
    solveFrom inclusions swept.1 (passes + 1) (fst_passMarked.trans (congrArg (pass · inclusions) h))
  else ⟨a, passes + 1⟩
termination_by inclusions.length - passes
decreasing_by
  have hgrows : (after inclusions passes).Grows inclusions := h ▸ snd_passMarked.1 hmark
  have hlt := lt_length_of_grows (fun _ hi => List.mem_map_of_mem hi) hgrows
  rw [List.length_map] at hlt
  omega

end Assignment

/-- The least sets of which the inclusions are true. -/
def solve (inclusions : List (Inclusion ι τ)) : Solution ι τ := Assignment.solveFrom inclusions .empty 0 rfl

/-- Passes were made as long as they added something, and one more. -/
def Solution.Converged (inclusions : List (Inclusion ι τ)) (s : Solution ι τ) : Prop :=
  ∃ n, s = ⟨.after inclusions n, n + 1⟩ ∧ (∀ k < n, (Assignment.after inclusions k).Grows inclusions)
    ∧ ¬ (Assignment.after inclusions n).Grows inclusions

variable {inclusions : List (Inclusion ι τ)}

theorem Assignment.converged_solveFrom {a : Assignment ι τ} {n : Nat} (h : a = after inclusions n)
    (hn : ∀ k < n, (after inclusions k).Grows inclusions) :
    (solveFrom inclusions a n h).Converged inclusions := by
  fun_induction solveFrom inclusions a n h with
  | case1 n swept hmark ih =>
    refine ih fun k hk => ?_
    rcases Nat.lt_succ_iff_lt_or_eq.1 hk with hlt | rfl
    · exact hn k hlt
    · exact snd_passMarked.1 hmark
  | case2 n swept hmark => exact ⟨n, rfl, hn, fun hgrows => hmark (snd_passMarked.2 hgrows)⟩

/-- The relaxation ends with the first pass that adds nothing. -/
theorem converged_solve (inclusions : List (Inclusion ι τ)) : (solve inclusions).Converged inclusions :=
  Assignment.converged_solveFrom rfl fun _ hk => absurd hk (Nat.not_lt_zero _)

theorem Solution.Converged.closed {s : Solution ι τ} (h : s.Converged inclusions) {i : Inclusion ι τ}
    (hi : i ∈ inclusions) {t : τ} (ht : t ∈ s.sets.membersOf i.source) : t ∈ (s.sets.get i.target).toList := by
  obtain ⟨n, rfl, -, hlast⟩ := h
  rw [← Assignment.get_pass_of_not_grows hlast]
  exact Assignment.mem_get_pass hi ht

theorem mem_solve_iff {name : ι} {t : τ} :
    t ∈ ((solve inclusions).sets.get name).toList ↔ Included inclusions name t := by
  have hconverged := converged_solve inclusions
  constructor
  · intro h
    obtain ⟨n, hsolve, -, -⟩ := hconverged
    rw [hsolve] at h
    exact Assignment.sound_after inclusions n name t h
  · intro h
    induction h with
    | member hi hsource ht =>
      apply hconverged.closed hi
      rw [hsource]
      exact ht
    | step hi hsource _ ih =>
      apply hconverged.closed hi
      rw [hsource]
      exact ih

end CanonicalLR
