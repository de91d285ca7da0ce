/-!
# Sets kept in order

A finite set stored as its strictly increasing list of members, so that two sets are equal exactly
when they have the same members, however they were built. Adding reports whether the member is new.
-/

namespace CanonicalLR

open Std

universe u

structure SortedSet (α : Type u) [Ord α] where
  toList : List α
  sorted : toList.Pairwise fun a b => compare a b = .lt
deriving DecidableEq

namespace SortedSet

variable {α : Type u} [Ord α]

/-- The list with `x` at its place, or nothing when the list already holds `x`. -/
def place? (x : α) : List α → Option (List α)
  | [] => some [x]
  | y :: rest =>
    match compare x y with
    | .lt => some (x :: y :: rest)
    | .eq => none
    | .gt => (place? x rest).map (y :: ·)

theorem mem_of_place? {x : α} {members placed : List α} (h : place? x members = some placed) (z : α) :
    z ∈ placed ↔ z = x ∨ z ∈ members := by
  induction members generalizing placed with
  | nil =>
    obtain rfl := Option.some.inj h
    simp
  | cons y rest ih =>
    rw [place?] at h
    split at h
    · obtain rfl := Option.some.inj h
      simp
    · simp at h
    · obtain ⟨tail, htail, rfl⟩ := Option.map_eq_some_iff.1 h
      simp only [List.mem_cons, ih htail]
      grind

variable [TransOrd α]

theorem sorted_of_place? {x : α} {members placed : List α}
    (hsorted : members.Pairwise fun a b => compare a b = .lt) (h : place? x members = some placed) :
    placed.Pairwise fun a b => compare a b = .lt := by
  induction members generalizing placed with
  | nil =>
    obtain rfl := Option.some.inj h
    simp
  | cons y rest ih =>
    obtain ⟨hhead, htail⟩ := List.pairwise_cons.1 hsorted
    rw [place?] at h
    split at h
    · rename_i hlt
      obtain rfl := Option.some.inj h
      refine List.pairwise_cons.2 ⟨?_, hsorted⟩
      intro z hz
      rcases List.mem_cons.1 hz with rfl | hz
      · exact hlt
      · exact TransCmp.lt_trans hlt (hhead z hz)
    · simp at h
    · rename_i hgt
      obtain ⟨tail, hplaced, rfl⟩ := Option.map_eq_some_iff.1 h
      refine List.pairwise_cons.2 ⟨?_, ih htail hplaced⟩
      intro z hz
      rcases (mem_of_place? hplaced z).1 hz with rfl | hz
      · exact OrientedCmp.lt_of_gt hgt
      · exact hhead z hz

theorem place?_eq_none_iff [LawfulEqOrd α] {x : α} {members : List α}
    (hsorted : members.Pairwise fun a b => compare a b = .lt) :
    place? x members = none ↔ x ∈ members := by
  induction members with
  | nil => simp [place?]
  | cons y rest ih =>
    obtain ⟨hhead, htail⟩ := List.pairwise_cons.1 hsorted
    rw [place?]
    split
    · rename_i hlt
      simp only [reduceCtorEq, List.mem_cons, false_iff, not_or]
      refine ⟨?_, ?_⟩
      · rintro rfl
        simp at hlt
      · intro hmem
        have := TransCmp.lt_trans hlt (hhead x hmem)
        simp at this
    · rename_i heq
      simp [LawfulEqCmp.eq_of_compare heq]
    · rename_i hgt
      have hne : x ≠ y := by
        rintro rfl
        simp at hgt
      simp [ih htail, hne]

def empty : SortedSet α := ⟨[], .nil⟩

/-- The set with `x`, and whether `x` is new to it. -/
def add (s : SortedSet α) (x : α) : SortedSet α × Bool :=
  match h : place? x s.toList with
  | none => (s, false)
  | some placed => (⟨placed, sorted_of_place? s.sorted h⟩, true)

def insert (s : SortedSet α) (x : α) : SortedSet α := (s.add x).1

/-! ### From a list

The members are sorted first, and of equal neighbours one is kept. -/

/-- The list with `x` in front, unless it begins with a member equal to `x`. -/
def consUnlessEqual (x : α) : List α → List α
  | [] => [x]
  | y :: rest => if compare x y = .eq then y :: rest else x :: y :: rest

def unrepeated (members : List α) : List α := members.foldr consUnlessEqual []

omit [TransOrd α] in
theorem mem_of_mem_unrepeated {members : List α} {z : α} (h : z ∈ unrepeated members) : z ∈ members := by
  induction members with
  | nil => exact h
  | cons x rest ih =>
    rw [unrepeated, List.foldr_cons, ← unrepeated] at h
    cases hkept : unrepeated rest with
    | nil =>
      rw [hkept, consUnlessEqual] at h
      exact List.mem_cons.2 (.inl (List.mem_singleton.1 h))
    | cons y kept =>
      rw [hkept] at h ih
      rw [consUnlessEqual] at h
      split at h
      · exact List.mem_cons_of_mem _ (ih h)
      · rcases List.mem_cons.1 h with rfl | h
        · exact List.mem_cons_self
        · exact List.mem_cons_of_mem _ (ih h)

omit [TransOrd α] in
theorem mem_unrepeated [LawfulEqOrd α] {members : List α} {z : α} :
    z ∈ unrepeated members ↔ z ∈ members := by
  refine ⟨mem_of_mem_unrepeated, fun h => ?_⟩
  induction members with
  | nil => exact h
  | cons x rest ih =>
    rw [unrepeated, List.foldr_cons, ← unrepeated]
    cases hkept : unrepeated rest with
    | nil =>
      rw [consUnlessEqual]
      rcases List.mem_cons.1 h with rfl | h
      · exact List.mem_singleton_self z
      · exact absurd (hkept ▸ ih h) List.not_mem_nil
    | cons y kept =>
      rw [hkept] at ih
      rw [consUnlessEqual]
      split
      · rename_i heq
        rcases List.mem_cons.1 h with rfl | h
        · exact LawfulEqCmp.eq_of_compare heq ▸ List.mem_cons_self
        · exact ih h
      · rcases List.mem_cons.1 h with rfl | h
        · exact List.mem_cons_self
        · exact List.mem_cons_of_mem _ (ih h)

theorem sorted_unrepeated {members : List α}
    (h : members.Pairwise fun a b => (compare a b).isLE) :
    (unrepeated members).Pairwise fun a b => compare a b = .lt := by
  induction members with
  | nil => exact .nil
  | cons x rest ih =>
    obtain ⟨hhead, hrest⟩ := List.pairwise_cons.1 h
    have hsorted := ih hrest
    have hmem (z : α) : z ∈ unrepeated rest → z ∈ rest := mem_of_mem_unrepeated
    rw [unrepeated, List.foldr_cons, ← unrepeated]
    cases hkept : unrepeated rest with
    | nil => simp [consUnlessEqual]
    | cons y kept =>
      rw [hkept] at hsorted hmem
      rw [consUnlessEqual]
      split
      · exact hsorted
      · rename_i hne
        have hlt : compare x y = .lt := by
          have hle := hhead y (hmem y List.mem_cons_self)
          cases hcompare : compare x y <;> simp_all
        refine List.pairwise_cons.2 ⟨fun z hz => ?_, hsorted⟩
        rcases List.mem_cons.1 hz with rfl | hz
        · exact hlt
        · exact TransCmp.lt_trans hlt ((List.pairwise_cons.1 hsorted).1 z hz)

def ofList (members : List α) : SortedSet α :=
  ⟨unrepeated (members.mergeSort fun a b => (compare a b).isLE),
    sorted_unrepeated (List.pairwise_mergeSort (fun _ _ _ => TransCmp.isLE_trans)
      (fun a b => by
        have : compare b a = (compare a b).swap := OrientedCmp.eq_swap
        cases hab : compare a b <;> simp [this, hab]) members)⟩


def size (s : SortedSet α) : Nat := s.toList.length

def isEmpty (s : SortedSet α) : Bool := s.toList.isEmpty

instance : Membership α (SortedSet α) := ⟨fun s x => x ∈ s.toList⟩

instance [DecidableEq α] (x : α) (s : SortedSet α) : Decidable (x ∈ s) :=
  inferInstanceAs (Decidable (x ∈ s.toList))

instance : Union (SortedSet α) := ⟨fun s t => ofList (s.toList ++ t.toList)⟩

/-! ### Members -/

omit [TransOrd α] in
theorem mem_def {x : α} {s : SortedSet α} : x ∈ s ↔ x ∈ s.toList := Iff.rfl

omit [TransOrd α] in
@[simp] theorem not_mem_empty (x : α) : ¬ x ∈ (empty : SortedSet α) := List.not_mem_nil

@[simp] theorem mem_insert [LawfulEqOrd α] {x z : α} {s : SortedSet α} :
    z ∈ s.insert x ↔ z = x ∨ z ∈ s := by
  simp only [insert, add, mem_def]
  split
  · rename_i h
    have := (place?_eq_none_iff s.sorted).1 h
    grind
  · rename_i placed h
    exact mem_of_place? h z

theorem add_snd [LawfulEqOrd α] {x : α} {s : SortedSet α} : (s.add x).2 = true ↔ ¬ x ∈ s := by
  simp only [add, mem_def]
  split
  · rename_i h
    simp [(place?_eq_none_iff s.sorted).1 h]
  · rename_i placed h
    simp [← place?_eq_none_iff s.sorted, h]

theorem mem_foldl_insert [LawfulEqOrd α] {z : α} (members : List α) (s : SortedSet α) :
    z ∈ members.foldl insert s ↔ z ∈ members ∨ z ∈ s := by
  induction members generalizing s with
  | nil => simp
  | cons x rest ih => simp only [List.foldl_cons, ih, mem_insert, List.mem_cons]; grind

@[simp] theorem mem_ofList [LawfulEqOrd α] {z : α} {members : List α} :
    z ∈ ofList members ↔ z ∈ members := by
  rw [mem_def, ofList, mem_unrepeated, List.mem_mergeSort]

@[simp] theorem mem_union [LawfulEqOrd α] {z : α} {s t : SortedSet α} : z ∈ s ∪ t ↔ z ∈ s ∨ z ∈ t := by
  change z ∈ ofList (s.toList ++ t.toList) ↔ _
  rw [mem_ofList, List.mem_append, mem_def, mem_def]

theorem nodup_toList (s : SortedSet α) : s.toList.Nodup := by
  refine s.sorted.imp fun {x y} hlt heq => ?_
  rw [heq, ReflOrd.compare_self] at hlt
  cases hlt

theorem size_le_of_subset {s t : SortedSet α} (h : ∀ z ∈ s, z ∈ t) : s.size ≤ t.size :=
  s.nodup_toList.length_le_of_subset h

omit [TransOrd α] in
theorem toList_injective {s t : SortedSet α} (h : s.toList = t.toList) : s = t := by
  cases s; cases t; simp_all

theorem eq_of_sorted_of_mem_iff {l₁ l₂ : List α}
    (h₁ : l₁.Pairwise fun a b => compare a b = .lt) (h₂ : l₂.Pairwise fun a b => compare a b = .lt)
    (h : ∀ z, z ∈ l₁ ↔ z ∈ l₂) : l₁ = l₂ := by
  induction l₁ generalizing l₂ with
  | nil =>
    cases l₂ with
    | nil => rfl
    | cons y rest => exact absurd ((h y).2 List.mem_cons_self) List.not_mem_nil
  | cons x rest ih =>
    cases l₂ with
    | nil => exact absurd ((h x).1 List.mem_cons_self) List.not_mem_nil
    | cons y rest' =>
      obtain ⟨hx, hrest⟩ := List.pairwise_cons.1 h₁
      obtain ⟨hy, hrest'⟩ := List.pairwise_cons.1 h₂
      have hxy : x = y := by
        rcases List.mem_cons.1 ((h x).1 List.mem_cons_self) with hxy | hmem
        · exact hxy
        · rcases List.mem_cons.1 ((h y).2 List.mem_cons_self) with hyx | hmem'
          · exact hyx.symm
          · have := TransCmp.lt_trans (hy x hmem) (hx y hmem')
            simp at this
      subst hxy
      congr 1
      refine ih hrest hrest' fun z => ⟨fun hz => ?_, fun hz => ?_⟩
      · rcases List.mem_cons.1 ((h z).1 (List.mem_cons_of_mem _ hz)) with rfl | hz'
        · have := hx z hz
          simp at this
        · exact hz'
      · rcases List.mem_cons.1 ((h z).2 (List.mem_cons_of_mem _ hz)) with rfl | hz'
        · have := hy z hz
          simp at this
        · exact hz'

theorem ext_mem {s t : SortedSet α} (h : ∀ z, z ∈ s ↔ z ∈ t) : s = t :=
  toList_injective (eq_of_sorted_of_mem_iff s.sorted t.sorted h)

/-- Sorting gives the set that adding the members one by one gives. -/
theorem ofList_eq_foldl_insert [LawfulEqOrd α] (members : List α) :
    ofList members = members.foldl insert empty :=
  ext_mem fun z => by simp [mem_foldl_insert]

/-! ### Order -/

instance : Ord (SortedSet α) := ⟨compareOn toList⟩

instance : TransOrd (SortedSet α) := inferInstanceAs (TransCmp (compareOn toList))

instance [LawfulEqOrd α] : LawfulEqOrd (SortedSet α) where
  eq_of_compare h := toList_injective (LawfulEqOrd.eq_of_compare (α := List α) h)

end SortedSet

end CanonicalLR
