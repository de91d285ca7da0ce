import CanonicalLR.Proofs.Grammar.First

/-!
# Relevant productions

A production is relevant when references lead to it from the root's production. All that an item lets start is decided by relevant productions, if the item's own is relevant: the productions of the nonterminal behind the dot are relevant, and so are those that decide what stands first in the symbol behind it. So grammars with the same relevant productions, in whatever order and with whatever others, expand an item alike (`mem_expansion`). Two grammars enter only through `SameRelevant`, which is symmetric, and a statement about both is proved in one direction.
-/

namespace CanonicalLR

/-- Chains of steps that keep to `P` are chains for any other steps that are the same within `P`. -/
theorem Reachable.congr_within {α : Type} {next next' : α → List α} {start : List α} {P : α → Prop}
    (hstart : ∀ x ∈ start, P x) (hnext : ∀ x, P x → ∀ y ∈ next x, P y ∧ y ∈ next' x) {x : α}
    (h : Reachable next start x) : P x ∧ Reachable next' start x := by
  induction h with
  | start hx => exact ⟨hstart _ hx, .start hx⟩
  | step _ hy ih =>
    obtain ⟨hP, hreach⟩ := ih
    obtain ⟨hPy, hy'⟩ := hnext _ hP _ hy
    exact ⟨hPy, .step hreach hy'⟩

namespace Grammar

variable {g h : Grammar} {p q : Production} {i j : Item} {x : Symbol} {t : Terminal}

/-- The productions of the nonterminals that a production refers to. -/
def referred (g : Grammar) (p : Production) : List Production :=
  (p.symbols.filterMap Symbol.nonterminal?).flatMap g.productionsOf

/-- References lead to the production from the root's. -/
def Relevant (g : Grammar) : Production → Prop := Reachable g.referred [g.root]

def SameRelevant (g h : Grammar) : Prop := ∀ p, g.Relevant p ↔ h.Relevant p

theorem mem_referred : q ∈ g.referred p ↔ q ∈ g.productions ∧ .nonterminal q.name ∈ p.symbols := by
  rw [referred, List.mem_flatMap]
  constructor
  · intro hq
    obtain ⟨n, hn, hof⟩ := hq
    obtain ⟨hq, rfl⟩ := mem_productionsOf.1 hof
    obtain ⟨x, hx, hname⟩ := List.mem_filterMap.1 hn
    cases x with
    | terminal t => cases hname
    | nonterminal n => exact ⟨hq, Option.some.inj hname ▸ hx⟩
  · intro hq
    obtain ⟨hq, hname⟩ := hq
    exact ⟨q.name, List.mem_filterMap.2 ⟨_, hname, rfl⟩, mem_productionsOf.2 ⟨hq, rfl⟩⟩

theorem relevant_root (g : Grammar) : g.Relevant g.root := .start (List.mem_singleton_self _)

theorem Relevant.mem_productions (hp : g.Relevant p) : p ∈ g.productions := by
  cases hp with
  | start hp => exact List.mem_singleton.1 hp ▸ g.root_mem
  | step _ hp => exact (mem_referred.1 hp).1

theorem Relevant.of_reference (hp : g.Relevant p) (hq : q ∈ g.productions)
    (hname : .nonterminal q.name ∈ p.symbols) : g.Relevant q :=
  .step hp (mem_referred.2 ⟨hq, hname⟩)

theorem Relevant.expansion (hi : g.Relevant i.production) (hj : j ∈ i.expansion g g.first) :
    g.Relevant j.production := by
  obtain ⟨n, p, t, hcurrent, hof, -, rfl⟩ := Item.mem_expansion.1 hj
  obtain ⟨hp, rfl⟩ := mem_productionsOf.1 hof
  exact hi.of_reference hp (List.mem_of_getElem? hcurrent)

namespace SameRelevant

theorem symm (hgh : g.SameRelevant h) : h.SameRelevant g := fun p => (hgh p).symm

theorem root_eq (hgh : g.SameRelevant h) : g.root = h.root :=
  h.root_unique _ ((hgh _).1 g.relevant_root).mem_productions g.root_name

theorem mem_productions (hgh : g.SameRelevant h) (hp : g.Relevant p) : p ∈ h.productions :=
  ((hgh p).1 hp).mem_productions

/-- It is enough that references agree within some productions that they do not lead out of. -/
theorem of_closed (within : List Production) (hroot : g.root ∈ within) (heq : h.root = g.root)
    (hagree : ∀ p ∈ within, ∀ q, q ∈ g.referred p ↔ q ∈ h.referred p)
    (hclosed : ∀ p ∈ within, ∀ q ∈ g.referred p, q ∈ within) : g.SameRelevant h := by
  intro p
  have hstart : ∀ q ∈ [g.root], q ∈ within := fun q hq => List.mem_singleton.1 hq ▸ hroot
  constructor
  · intro hp
    have hreach := (hp.congr_within hstart fun q hq r hr => ⟨hclosed q hq r hr, (hagree q hq r).1 hr⟩).2
    rwa [← heq] at hreach
  · intro hp
    rw [Relevant, heq] at hp
    exact (hp.congr_within hstart fun q hq r hr =>
      ⟨hclosed q hq r ((hagree q hq r).2 hr), (hagree q hq r).2 hr⟩).2

theorem starts (hgh : g.SameRelevant h) (hx : g.Starts x t) (hp : g.Relevant p) (hmem : x ∈ p.symbols) :
    h.Starts x t := by
  induction hx generalizing p with
  | terminal t => exact .terminal t
  | production hq hfirst _ ih =>
    have hrelevant := hp.of_reference hq hmem
    exact .production (hgh.mem_productions hrelevant) hfirst (ih hrelevant (List.mem_of_mem_head? hfirst))

theorem starts_iff (hgh : g.SameRelevant h) (hp : g.Relevant p) (hmem : x ∈ p.symbols) :
    g.Starts x t ↔ h.Starts x t :=
  ⟨fun hx => hgh.starts hx hp hmem, fun hx => hgh.symm.starts hx ((hgh p).1 hp) hmem⟩

theorem mem_expansionLookaheads_iff (hgh : g.SameRelevant h) (hi : g.Relevant i.production) :
    t ∈ i.expansionLookaheads g.first ↔ t ∈ i.expansionLookaheads h.first := by
  cases hfollowing : i.following? with
  | none => rw [Item.expansionLookaheads_of_last hfollowing, Item.expansionLookaheads_of_last hfollowing]
  | some x =>
    have hx : x ∈ i.production.symbols := List.mem_of_getElem? hfollowing
    rw [Item.mem_expansionLookaheads_iff hfollowing, Item.mem_expansionLookaheads_iff hfollowing]
    simp only [hgh.starts_iff hi hx]

theorem mem_expansion (hgh : g.SameRelevant h) (hi : g.Relevant i.production) (hj : j ∈ i.expansion g g.first) :
    j ∈ i.expansion h h.first := by
  have hrelevant := hi.expansion hj
  obtain ⟨n, p, t, hcurrent, hof, ht, rfl⟩ := Item.mem_expansion.1 hj
  have hof' := mem_productionsOf.2 ⟨hgh.mem_productions hrelevant, (mem_productionsOf.1 hof).2⟩
  exact Item.mem_expansion.2 ⟨n, p, t, hcurrent, hof', (hgh.mem_expansionLookaheads_iff hi).1 ht, rfl⟩

end SameRelevant

end Grammar

end CanonicalLR
