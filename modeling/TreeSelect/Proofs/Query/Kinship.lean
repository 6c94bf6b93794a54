import TreeSelect.Proofs.Query.Chain
import TreeSelect.Proofs.Query.Lookups
/-!
# Kinship

The tests of the five combinators are computed from different data: a way up, a parent, a stored
neighbour, two ways down from the root. In a grown tree each of them says something about lists of
children: who is below whom, and who is listed behind whom. So one combinator can say more than
another, and a chain with the first finds no more than the same chain with the second.

## Main statements

* `Combinator.relates_nextSibling`, `Combinator.relates_of_child`: what follows from a test.
* `Tree.Built.relates_kin`: **the combinators stand for kinship.**
-/

namespace TreeSelect

/-! ### Tests -/

/-- The tag of a node is accepted if the node is an element with such a tag. -/
theorem Simple.acceptsTagOf_iff {t : Tree} {s : Simple} {n : NodeId} :
    s.acceptsTagOf t.view n = true ↔ ∃ e, t.element? n = some e ∧ s.acceptsTag e.tag = true := by
  simp [acceptsTagOf, Tree.view, Tree.source, Option.any_eq_true]

namespace Combinator

variable {t : Tree} {right : Simple} {a b : NodeId}

/-- A space relates a node to its descendants. -/
theorem relates_descendant_iff (h : t.WellLinked) :
    descendant.relates t.view right a b = true ↔ b ∈ t.descendants a := by
  rw [relates_iff h, h.mem_descendants_iff]
  simp only [ChecksTag, false_imp_iff, and_true]
  rfl

/-- `>` relates a node to its children and itself, if they have an accepted tag. -/
theorem relates_child_iff (h : t.WellLinked) :
    child.relates t.view right a b = true ↔
      (b ∈ t.children a ∨ b = a) ∧ ∃ e, t.element? b = some e ∧ right.acceptsTag e.tag = true := by
  rw [relates_iff h, ← Simple.acceptsTagOf_iff]
  simp only [ChecksTag, true_imp_iff]
  rfl

/-- `+` relates a node to the first element listed behind it. -/
theorem relates_nextSibling_iff (h : t.WellLinked) :
    nextSibling.relates t.view right a b = true ↔
      ∃ p before after, t.parent? a = some p ∧ t.children p = before ++ a :: after ∧
        after.find? t.isElement = some b := by
  rw [relates_iff h]
  simp only [ChecksTag, false_imp_iff, and_true]
  constructor
  · rintro ⟨p, before, between, after, hsplit, helement, hbetween⟩
    refine ⟨p, before, between ++ b :: after, h.parent?_eq_some_iff.mpr (by simp [hsplit]),
      hsplit, List.find?_eq_some_iff_append.mpr ⟨helement, between, after, rfl, ?_⟩⟩
    simpa using hbetween
  · rintro ⟨p, before, rest, -, hsplit, hfind⟩
    obtain ⟨helement, between, after, rfl, hbetween⟩ := List.find?_eq_some_iff_append.mp hfind
    exact ⟨p, before, between, after, hsplit, helement, by simpa using hbetween⟩

/-- `~` relates a node to the nodes listed behind it, if they have an accepted tag. -/
theorem relates_subsequentSibling_iff (h : t.WellLinked) :
    subsequentSibling.relates t.view right a b = true ↔
      (∃ p before between after, t.parent? a = some p ∧ t.parent? b = some p ∧
        t.children p = before ++ a :: (between ++ b :: after)) ∧
      ∃ e, t.element? b = some e ∧ right.acceptsTag e.tag = true := by
  rw [relates_iff h, ← Simple.acceptsTagOf_iff]
  simp only [ChecksTag, true_imp_iff]
  refine and_congr_left fun _ => ⟨?_, ?_⟩
  · rintro ⟨p, before, between, after, hsplit⟩
    exact ⟨p, before, between, after, h.parent?_eq_some_iff.mpr (by simp [hsplit]),
      h.parent?_eq_some_iff.mpr (by simp [hsplit]), hsplit⟩
  · rintro ⟨p, before, between, after, -, -, hsplit⟩
    exact ⟨p, before, between, after, hsplit⟩

/-- What `+` relates, `~` relates as well, provided that the tag is accepted. -/
theorem relates_nextSibling (h : t.WellLinked) (hab : nextSibling.relates t.view right a b = true)
    (htag : right.acceptsTagOf t.view b = true) :
    subsequentSibling.relates t.view right a b = true := by
  rw [relates_iff h] at hab ⊢
  obtain ⟨⟨p, before, between, after, hsplit, -, -⟩, -⟩ := hab
  exact ⟨⟨p, before, between, after, hsplit⟩, fun _ => htag⟩

/-- What `>` relates to a node other than itself, a space relates to it as well. -/
theorem relates_of_child (h : t.WellLinked) (hab : child.relates t.view right a b = true)
    (hne : b ≠ a) : descendant.relates t.view right a b = true := by
  rw [relates_iff h] at hab ⊢
  obtain ⟨hchild | heq, -⟩ := hab
  · exact ⟨.single (h.parent?_eq_some_iff.mpr hchild), fun hnone => hnone.elim⟩
  · exact absurd heq hne

end Combinator

/-! ### Chains of two -/

/-- Whatever passes one test and another as well is in the order of those that pass the other. -/
theorem filter_sublist_filter {α : Type} {p q : α → Bool} {l : List α}
    (h : ∀ a ∈ l, p a = true → q a = true) : (l.filter p).Sublist (l.filter q) := by
  have hboth : l.filter p = (l.filter q).filter p := by
    rw [List.filter_filter]
    refine List.filter_congr fun a ha => ?_
    cases hp : p a with
    | false => rfl
    | true => simp [h a ha hp]
  rw [hboth]
  exact List.filter_sublist

/-- Two simple selectors with a combinator between them. -/
def Selector.pair (left : Simple) (c : Combinator) (right : Simple) : Selector :=
  ⟨left, [(c, right)]⟩

/-- A chain of two finds the candidates that are related to an anchor, unless it reports its
anchors. -/
theorem Selector.matches_pair {ν : Type} [DecidableEq ν] {c : Combinator} {options : Options}
    (hc : c.reportsAnchor options = false) (left right : Simple) (v : View ν) (scope : ν) :
    (pair left c right).matches v options scope =
      (right.resolve v scope).filter fun n =>
        (options.anchorMode.select (left.resolve v scope)).any fun a => c.relates v right a n := by
  simp [Selector.matches, pair, matchChain, hc]

namespace Tree

/-- **The combinators stand for kinship.** In every grown tree, looked at in either way, a space
relates a node to its descendants; `>` and `<` to its children and itself; `+` to the first element
listed behind it by its parent; and `~` to the nodes listed behind it by its parent; where `>`, `<`
and `~` also ask for an element with a tag that the simple selector on the right accepts. Hence a
chain with `+` finds some of what the chain with `~` finds, if that reports its candidates, and what
a chain with `>` finds and is not an anchor itself, the chain with a space finds as well. -/
theorem Built.relates_kin {t : Tree} (h : t.Built) (lookup : Lookup) :
    let v := t.viewBy lookup
    (∀ (right : Simple) (a b : NodeId),
      (Combinator.descendant.relates v right a b = true ↔ b ∈ t.descendants a) ∧
      (Combinator.child.relates v right a b = true ↔
        (b ∈ t.children a ∨ b = a) ∧ ∃ e, t.element? b = some e ∧ right.acceptsTag e.tag = true) ∧
      (Combinator.reverseChild.relates v right a b = true ↔
        (b ∈ t.children a ∨ b = a) ∧ ∃ e, t.element? b = some e ∧ right.acceptsTag e.tag = true) ∧
      (Combinator.nextSibling.relates v right a b = true ↔
        ∃ p before after, t.parent? a = some p ∧ t.children p = before ++ a :: after ∧
          after.find? t.isElement = some b) ∧
      (Combinator.subsequentSibling.relates v right a b = true ↔
        (∃ p before between after, t.parent? a = some p ∧ t.parent? b = some p ∧
          t.children p = before ++ a :: (between ++ b :: after)) ∧
        ∃ e, t.element? b = some e ∧ right.acceptsTag e.tag = true)) ∧
    ∀ (left right : Simple) (scope : NodeId) (mode : AnchorMode),
      ((Selector.pair left .nextSibling right).matches v ⟨mode, .candidate⟩ scope).Sublist
        ((Selector.pair left .subsequentSibling right).matches v ⟨mode, .candidate⟩ scope) ∧
      ∀ (side : SiblingResult),
        ∀ n ∈ (Selector.pair left .child right).matches v ⟨mode, side⟩ scope,
          n ∉ mode.select (left.resolve v scope) →
            n ∈ (Selector.pair left .descendant right).matches v ⟨mode, side⟩ scope := by
  intro v
  have hw := h.wellLinked
  have hv : v = t.view := hw.viewBy_eq lookup
  rw [hv]
  refine ⟨fun right a b => ⟨Combinator.relates_descendant_iff hw, Combinator.relates_child_iff hw,
    Combinator.relates_child_iff hw, Combinator.relates_nextSibling_iff hw,
    Combinator.relates_subsequentSibling_iff hw⟩, fun left right scope mode =>
    ⟨?_, fun side n hn hnot => ?_⟩⟩
  · rw [Selector.matches_pair rfl, Selector.matches_pair rfl]
    refine filter_sublist_filter fun n hn hany => ?_
    obtain ⟨a, ha, hab⟩ := List.any_eq_true.mp hany
    have htag := Simple.acceptsTagOf_of_accepts (List.mem_filter.mp hn).2
    exact List.any_eq_true.mpr ⟨a, ha, Combinator.relates_nextSibling hw hab htag⟩
  · rw [Selector.matches_pair rfl, List.mem_filter, List.any_eq_true] at hn ⊢
    obtain ⟨hn, a, ha, hab⟩ := hn
    refine ⟨hn, a, ha, Combinator.relates_of_child hw hab ?_⟩
    rintro rfl
    exact hnot ha

/-- Of two items around a text the second is next to the first, so it stands behind it, and it is
below the list, whose child it is. -/
theorem relates_kin_lateItems :
    let v := lateItems.viewBy .scanning
    lateItems.Built ∧ Combinator.nextSibling.relates v {} 2 4 = true ∧
      [4].Sublist ((Selector.pair {} .subsequentSibling { classes := [['a']] }).matches v
        ⟨.every, .candidate⟩ 0) ∧
      4 ∈ (Selector.pair { tag := some (.named ['U', 'L']) } .descendant
        { classes := [['a']] }).matches v {} 0 := by
  intro v
  have hbuilt : lateItems.Built := by
    refine .attach (.append _ (.append _ (.append _ (.alloc _ .empty) ?_) ?_) ?_) ?_ ?_ ?_ ?_ ?_ ?_
    all_goals decide
  obtain ⟨hrelates, hchains⟩ := hbuilt.relates_kin .scanning
  obtain ⟨-, -, -, hnext, -⟩ := hrelates {} 2 4
  obtain ⟨hsublist, -⟩ := hchains {} { classes := [['a']] } 0 .every
  obtain ⟨-, hbelow⟩ := hchains { tag := some (.named ['U', 'L']) } { classes := [['a']] } 0 .first
  have hfound : (Selector.pair {} .nextSibling { classes := [['a']] }).matches v
      ⟨.every, .candidate⟩ 0 = [4] := by decide
  exact ⟨hbuilt, hnext.mpr ⟨1, [], [3, 4], by decide, by decide, by decide⟩, hfound ▸ hsublist,
    hbelow .anchor 4 (by decide) (by decide)⟩

end Tree

end TreeSelect
