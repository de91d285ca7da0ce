import CanonicalLR.Fixpoint.Relaxation

/-!
# Counting passes

The relaxation of inclusions makes at least one pass, and at most one more than there are targets (`Solution.Converged.passes_le`). So the loop needs no reason to end when it is given a number of passes: within these it stops by itself, with the same sets (`exists_relaxWithin`).
-/

namespace CanonicalLR

open Std

universe u v

variable {ι : Type u} {τ : Type v} [Ord ι] [Ord τ] [TransOrd ι] [LawfulEqOrd ι] [TransOrd τ] [LawfulEqOrd τ]
  {inclusions : List (Inclusion ι τ)} {s : Solution ι τ}

omit [TransOrd ι] [LawfulEqOrd ι] in
theorem Solution.Converged.passes_pos (h : s.Converged inclusions) : 1 ≤ s.passes := by
  obtain ⟨n, rfl, -, -⟩ := h
  exact Nat.le_add_left 1 n

/-- One pass for each target is enough, and the one that adds nothing. -/
theorem Solution.Converged.passes_le (h : s.Converged inclusions) {names : List ι}
    (htargets : ∀ i ∈ inclusions, i.target ∈ names) : s.passes ≤ names.length + 1 := by
  obtain ⟨n, rfl, hgrows, -⟩ := h
  show n + 1 ≤ names.length + 1
  cases n with
  | zero => omega
  | succ n =>
    have hlt := Assignment.lt_length_of_grows htargets (hgrows n n.lt_succ_self)
    omega

/-- Passes from `a` on until one ends without the mark, where `passes` have been made. Nothing comes of it if that takes more than `limit` passes. -/
def relaxWithin (inclusions : List (Inclusion ι τ)) : Nat → Assignment ι τ → Nat → Option (Solution ι τ)
  | 0, _, _ => none
  | limit + 1, a, passes =>
    let swept := a.passMarked inclusions
    if swept.2 then relaxWithin inclusions limit swept.1 (passes + 1) else some ⟨swept.1, passes + 1⟩

theorem relaxWithin_after {n p limit : Nat} (hgrows : ∀ k < n, (Assignment.after inclusions k).Grows inclusions)
    (hlast : ¬ (Assignment.after inclusions n).Grows inclusions) (hp : p ≤ n) (hlimit : n < p + limit) :
    relaxWithin inclusions limit (.after inclusions p) p = some ⟨.after inclusions (n + 1), n + 1⟩ := by
  induction limit generalizing p with
  | zero => omega
  | succ limit ih =>
    rw [relaxWithin, Assignment.fst_passMarked]
    rcases Nat.lt_or_eq_of_le hp with hlt | rfl
    · rw [if_pos (Assignment.snd_passMarked.2 (hgrows p hlt))]
      exact ih hlt (by omega)
    · rw [if_neg fun hmark => hlast (Assignment.snd_passMarked.1 hmark)]
      rfl

theorem exists_relaxWithin (h : s.Converged inclusions) {limit : Nat} (hlimit : s.passes ≤ limit) :
    ∃ s', relaxWithin inclusions limit .empty 0 = some s' ∧ s'.passes = s.passes ∧ s'.sets.get = s.sets.get := by
  obtain ⟨n, rfl, hgrows, hlast⟩ := h
  refine ⟨_, relaxWithin_after hgrows hlast n.zero_le (by rwa [Nat.zero_add]), rfl, ?_⟩
  funext name
  exact Assignment.get_pass_of_not_grows hlast name

end CanonicalLR
