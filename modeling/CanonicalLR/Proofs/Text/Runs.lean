import CanonicalLR.Proofs.Grammar.Layout
import CanonicalLR.Proofs.Text.Places
import CanonicalLR.Token
import Mathlib.Data.List.TakeWhile

/-!
# Runs

The words of a text are its runs, which are the longest parts without blanks. A text can be cut at any blank without changing its runs (`runs_append_cons`), and with this everything is known of them: they are what they should be (`mem_runs_iff`), they can be found line by line because a line feed is a blank (`ofWords_eq_map_runs`), and where there is no punctuation they are the names that the scanner finds (`scanFrom_eq_map_runs`).
-/

namespace CanonicalLR

namespace Text

/-- The characters `word` behind `before` are a run of the text: there is none that could be added to it. -/
def IsRun (cs before word : List Char) : Prop :=
  ∃ after, before ++ word ++ after = cs ∧ word ≠ [] ∧ (∀ c ∈ word, isBlank c = false) ∧
    (∀ c ∈ before.getLast?, isBlank c = true) ∧ ∀ c ∈ after.head?, isBlank c = true

/-- The runs of the characters behind `before`, each with what is before it. -/
def runs (before : List Char) : List Char → List (List Char × List Char)
  | [] => []
  | c :: rest =>
    if isBlank c then runs (before ++ [c]) rest
    else
      let more := rest.takeWhile (!isBlank ·)
      (before, c :: more) :: runs (before ++ c :: more) (rest.dropWhile (!isBlank ·))
termination_by cs => cs.length
decreasing_by
  · exact Nat.lt_succ_self _
  · exact Nat.lt_succ_of_le (List.dropWhile_sublist _).length_le

variable {before word after cs rest : List Char} {c : Char} {run : List Char × List Char}

theorem runs_blank (h : isBlank c = true) (before rest : List Char) :
    runs before (c :: rest) = runs (before ++ [c]) rest := by rw [runs, if_pos h]

theorem runs_of_not_blank (h : isBlank c ≠ true) (before rest : List Char) : runs before (c :: rest)
    = (before, c :: rest.takeWhile (!isBlank ·))
      :: runs (before ++ c :: rest.takeWhile (!isBlank ·)) (rest.dropWhile (!isBlank ·)) := by
  rw [runs, if_neg h]

theorem cons_takeWhile_append_dropWhile (c : Char) (rest : List Char) :
    (c :: rest.takeWhile (!isBlank ·)) ++ rest.dropWhile (!isBlank ·) = c :: rest := by
  rw [List.cons_append, List.takeWhile_append_dropWhile]

theorem isBlank_of_mem_cons_takeWhile {d : Char} (hc : ¬ isBlank c = true) (hd : d ∈ c :: rest.takeWhile (!isBlank ·)) :
    isBlank d = false := by
  rcases List.mem_cons.1 hd with rfl | hd
  · exact Bool.not_eq_true _ ▸ hc
  · simpa using List.mem_takeWhile_imp hd

theorem isBlank_head?_dropWhile (cs : List Char) : ∀ c ∈ (cs.dropWhile (!isBlank ·)).head?, isBlank c = true :=
  fun c hc => by simpa using eq_false_of_mem_head?_dropWhile hc

/-- A text may be cut at a blank. -/
theorem runs_append_cons (hc : isBlank c = true) (before cs rest : List Char) :
    runs before (cs ++ c :: rest) = runs before cs ++ runs (before ++ cs ++ [c]) rest := by
  induction before, cs using runs.induct with
  | case1 before => rw [List.nil_append, List.append_nil, runs_blank hc, runs, List.nil_append]
  | case2 before b cs hb ih =>
    rw [List.cons_append, runs_blank hb, ih, runs_blank hb, List.append_assoc before, List.singleton_append]
  | case3 before d cs hd more ih =>
    have hc' : (!isBlank c) = false := by rw [hc, Bool.not_true]
    have hcs : before ++ d :: more ++ cs.dropWhile (!isBlank ·) = before ++ d :: cs := by
      rw [List.append_assoc, cons_takeWhile_append_dropWhile]
    obtain ⟨htake, hdrop⟩ := takeWhile_append_cons (p := (!isBlank ·)) hc' cs rest
    rw [List.cons_append, runs_of_not_blank hd, runs_of_not_blank hd, htake, hdrop, ih, hcs, List.cons_append]

theorem runs_word (hne : word ≠ []) (hword : ∀ c ∈ word, isBlank c = false) (before : List Char) :
    runs before word = [(before, word)] := by
  cases word with
  | nil => exact absurd rfl hne
  | cons c more =>
    have hc : isBlank c ≠ true := by simp [hword c List.mem_cons_self]
    have hmore : ∀ d ∈ more, (!isBlank d) = true := fun d hd => by simp [hword d (List.mem_cons_of_mem _ hd)]
    rw [runs_of_not_blank hc, List.takeWhile_eq_self_iff.2 hmore, List.dropWhile_eq_nil_iff.2 hmore, runs]

/-- The part behind `before` can be looked at alone: no run goes across the border. -/
def IsCut (before cs : List Char) : Prop :=
  (∀ c ∈ before.getLast?, isBlank c = true) ∨ ∀ c ∈ cs.head?, isBlank c = true

theorem isRun_of_mem_runs (hcut : IsCut before cs) (h : run ∈ runs before cs) : IsRun (before ++ cs) run.1 run.2 := by
  induction before, cs using runs.induct with
  | case1 before =>
    rw [runs] at h
    exact absurd h List.not_mem_nil
  | case2 before c rest hc ih =>
    rw [runs_blank hc] at h
    rw [List.append_cons]
    exact ih (.inl (by simp [hc])) h
  | case3 before c rest hc more ih =>
    have hafter := isBlank_head?_dropWhile rest
    have hrest : before ++ c :: more ++ rest.dropWhile (!isBlank ·) = before ++ c :: rest := by
      rw [List.append_assoc, cons_takeWhile_append_dropWhile]
    rw [runs_of_not_blank hc] at h
    rcases List.mem_cons.1 h with rfl | h
    · have hbefore := hcut.resolve_right fun hhead => hc (hhead c rfl)
      exact ⟨_, hrest, List.cons_ne_nil _ _, fun d => isBlank_of_mem_cons_takeWhile hc, hbefore, hafter⟩
    · rw [← hrest]
      exact ih (.inr hafter) h

theorem mem_runs_of_isRun (h : IsRun cs before word) : (before, word) ∈ runs [] cs := by
  obtain ⟨after, rfl, hne, hword, hbefore, hafter⟩ := h
  have hmem : (before, word) ∈ runs before (word ++ after) := by
    cases after with
    | nil => rw [List.append_nil, runs_word hne hword]; exact List.mem_singleton_self _
    | cons c rest =>
      rw [runs_append_cons (hafter c rfl), runs_word hne hword]
      exact List.mem_cons_self
  rcases List.eq_nil_or_concat before with rfl | ⟨front, c, rfl⟩
  · exact hmem
  · have hc : isBlank c = true := hbefore c (by simp)
    rw [List.concat_eq_append] at hmem ⊢
    rw [List.append_assoc, List.append_assoc, List.singleton_append, runs_append_cons hc]
    exact List.mem_append_right _ hmem

theorem mem_runs_iff : run ∈ runs [] cs ↔ IsRun cs run.1 run.2 :=
  ⟨isRun_of_mem_runs (.inl nofun), mem_runs_of_isRun⟩

theorem length_le_of_mem_runs (h : run ∈ runs before cs) : before.length ≤ run.1.length := by
  induction before, cs using runs.induct with
  | case1 before =>
    rw [runs] at h
    exact absurd h List.not_mem_nil
  | case2 before c rest hc ih =>
    rw [runs_blank hc] at h
    have hle := ih h
    rw [List.length_append] at hle
    omega
  | case3 before c rest hc more ih =>
    rw [runs_of_not_blank hc] at h
    rcases List.mem_cons.1 h with rfl | h
    · exact le_rfl
    · have hle := ih h
      rw [List.length_append] at hle
      omega

theorem pairwise_runs (before cs : List Char) :
    (runs before cs).Pairwise fun run run' => run.1.length < run'.1.length := by
  induction before, cs using runs.induct with
  | case1 before =>
    rw [runs]
    exact .nil
  | case2 before c rest hc ih =>
    rw [runs_blank hc]
    exact ih
  | case3 before c rest hc more ih =>
    rw [runs_of_not_blank hc]
    refine .cons (fun run hrun => ?_) ih
    have hle := length_le_of_mem_runs hrun
    rw [List.length_append, List.length_cons] at hle
    change before.length < run.1.length
    omega

end Text

/-! ### Tokens -/

namespace Token

/-- The run as a token, at the place behind what is before it. -/
def ofRun (run : List Char × List Char) : Token :=
  ⟨String.ofList run.2, String.ofList run.2, some (.behind run.1)⟩

variable {before cs : List Char} {line column : Nat}

theorem behind_append_of_not_mem (h : '\n' ∉ cs) (before : List Char) : Location.behind (before ++ cs)
    = ⟨(Location.behind before).line, (Location.behind before).column + cs.length⟩ := by
  induction cs generalizing before with
  | nil => rw [List.append_nil]; rfl
  | cons c rest ih =>
    have hc : c ≠ '\n' := fun hc => h (hc ▸ List.mem_cons_self)
    rw [List.append_cons, ih fun hn => h (List.mem_cons_of_mem _ hn), ← Location.after_behind, Location.after,
      if_neg hc, List.length_cons, Nat.add_assoc, Nat.add_comm 1]

theorem map_words (h : '\n' ∉ cs) :
    (words (Location.behind before).column cs).map (ofWord (Location.behind before).line)
      = (Text.runs before cs).map ofRun := by
  induction before, cs using Text.runs.induct with
  | case1 before => rw [words, Text.runs]; rfl
  | case2 before c rest hc ih =>
    have hne : '\n' ∉ [c] := fun hn => h (List.mem_singleton.1 hn ▸ List.mem_cons_self)
    have ih := ih fun hn => h (List.mem_cons_of_mem _ hn)
    rw [behind_append_of_not_mem hne] at ih
    rw [words, if_pos hc, Text.runs_blank hc]
    exact ih
  | case3 before c rest hc more ih =>
    have hcs : c :: more ++ rest.dropWhile (!Text.isBlank ·) = c :: rest := Text.cons_takeWhile_append_dropWhile c rest
    rw [← hcs, List.mem_append, not_or] at h
    have ih := ih h.2
    rw [behind_append_of_not_mem h.1] at ih
    rw [words, if_neg hc, Text.runs_of_not_blank hc, List.map_cons, List.map_cons]
    exact congrArg (List.cons _) ih

/-- Words are found line by line, for no run goes across a line feed. -/
theorem flatMap_words (cs before : List Char) {index : Nat} (h : Location.behind before = ⟨index + 1, 1⟩) :
    ((cs.splitOn '\n').zipIdx index).flatMap (fun (line, index) => (words 1 line).map (ofWord (index + 1)))
      = (Text.runs before cs).map ofRun := by
  induction hlength : cs.length using Nat.strong_induction_on generalizing cs before index with
  | _ n ih =>
    have hwords {line : List Char} (hline : '\n' ∉ line) :
        (words 1 line).map (ofWord (index + 1)) = (Text.runs before line).map ofRun := by
      have hmap : (words (Location.behind before).column line).map (ofWord (Location.behind before).line) = _ :=
        map_words hline
      rw [h] at hmap
      exact hmap
    by_cases hn : '\n' ∈ cs
    · obtain ⟨line, rest, rfl, hline⟩ := List.eq_append_cons_of_mem hn
      have hrest : Location.behind (before ++ line ++ ['\n']) = ⟨index + 1 + 1, 1⟩ := by
        rw [← Location.after_behind, behind_append_of_not_mem hline, h]
        rfl
      rw [List.splitOn_append_cons_self_of_not_mem hline, List.zipIdx_cons, List.flatMap_cons,
        ih rest.length (by simp at hlength; omega) rest _ hrest rfl, Text.runs_append_cons rfl, List.map_append,
        ← hwords hline]
    · rw [List.splitOn_eq_singleton hn, List.zipIdx_singleton, List.flatMap_singleton]
      exact hwords hn

theorem ofWords_eq_map_runs (text : String) : ofWords text = (Text.runs [] text.toList).map ofRun :=
  flatMap_words text.toList [] rfl

end Token

namespace Lexeme

theorem scanFrom_eq_map_runs (before : List Char) {cs : List Char} (h : ∀ c ∈ cs, isPunctuation c = false) :
    scanFrom (.behind before) cs
      = (Text.runs before cs).map (fun run => ⟨.literal, String.ofList run.2, .behind run.1⟩)
        ++ [⟨.endOfText, "", .behind (before ++ cs)⟩] := by
  induction before, cs using Text.runs.induct with
  | case1 before => rw [scanFrom, Text.runs, List.append_nil]; rfl
  | case2 before c rest hc ih =>
    rw [scanFrom, if_pos hc, Text.runs_blank hc, Location.after_behind, ih fun d hd => h d (List.mem_cons_of_mem _ hd),
      List.append_assoc, List.singleton_append]
  | case3 before c rest hc more ih =>
    have hcs : c :: more ++ rest.dropWhile (!Text.isBlank ·) = c :: rest := Text.cons_takeWhile_append_dropWhile c rest
    have hword : ∀ d ∈ c :: more, isWordChar d = true := by
      intro d hd
      rw [isWordChar, Text.isBlank_of_mem_cons_takeWhile hc hd, h d (hcs ▸ List.mem_append_left _ hd)]
      rfl
    have hends : EndsWord (rest.dropWhile (!Text.isBlank ·)) :=
      fun d hd => not_isWordChar_of_isBlank (Text.isBlank_head?_dropWhile rest d hd)
    have hlegal : Legal (String.ofList (c :: more)) := ⟨by simp, by simpa only [String.toList_ofList] using hword⟩
    have hscan : scanFrom (.behind before) _ = _ := scanFrom_literal hlegal hends
    rw [String.toList_ofList, hcs, Location.afterAll_behind,
      ih fun d hd => h d (hcs ▸ List.mem_append_right _ hd), List.append_assoc, hcs] at hscan
    rw [hscan, Text.runs_of_not_blank hc]
    rfl

end Lexeme

end CanonicalLR
