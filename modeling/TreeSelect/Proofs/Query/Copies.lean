import TreeSelect.Proofs.Document.Grafting
import TreeSelect.Proofs.Query.Blocks
/-!
# Copies of a tree

A copy of a tree holds the same nodes at other places: what a node is, its parent and its children
are the same up to the places, for the root and everything below it. A query looks at nothing else,
so it finds in the copy what it finds in the tree. The order of siblings is part of what is copied,
and with it document order; the places themselves never decide anything.

Every fact has the same shape: asking the copy at the copied place is asking the tree and copying
the answer.

## Main definitions

* `Tree.Copies`: a map of places copies one tree into another.

## Main statements

* `Copies.subtree`, `Copies.ancestors`: the walks down and up are copied.
* `Copies.relates`: what a combinator relates is copied.
* `Copies.matches_list`: **what a selector list finds is copied.**
-/

namespace TreeSelect

/-- A mapped list is cut at the image of an element where the list is cut at the element, if nothing
else in it has this image. -/
theorem map_eq_append_cons_iff {α β : Type} {f : α → β} {l : List α} {a : α}
    (hinj : ∀ x ∈ l, f x = f a → x = a) {front back : List β} :
    l.map f = front ++ f a :: back ↔
      ∃ before after, l = before ++ a :: after ∧ front = before.map f ∧ back = after.map f := by
  constructor
  · intro h
    obtain ⟨before, rest, rfl, hfront, hrest⟩ := List.map_eq_append_iff.mp h
    obtain ⟨x, after, rfl, hx, hback⟩ := List.map_eq_cons_iff.mp hrest
    obtain rfl := hinj x (by simp) hx
    exact ⟨before, after, rfl, hfront.symm, hback.symm⟩
  · rintro ⟨before, after, rfl, rfl, rfl⟩
    simp

/-- A mapped list is filtered as the list is, by what the filter says of the images. -/
theorem filter_map_of_forall {α β : Type} {f : α → β} {p : α → Bool} {q : β → Bool} {l : List α}
    (h : ∀ a ∈ l, q (f a) = p a) : (l.map f).filter q = (l.filter p).map f := by
  rw [List.filter_map]
  exact congrArg (List.map f) (List.filter_congr h)

/-- A test holds of some image if what it says of the images holds of some member. -/
theorem any_map_of_forall {α β : Type} {f : α → β} {p : α → Bool} {q : β → Bool} {l : List α}
    (h : ∀ a ∈ l, q (f a) = p a) : (l.map f).any q = l.any p := by
  rw [List.any_map, Bool.eq_iff_iff, List.any_eq_true, List.any_eq_true]
  refine exists_congr fun a => and_congr_right fun ha => ?_
  rw [Function.comp_apply, h a ha]

namespace Tree

/-- A map of places copies what a tree has below its root into another tree. -/
structure Copies (t r : Tree) (place : NodeId → NodeId) : Prop where
  /-- The root has no parent. -/
  detached : t.parent? NodeId.root = none
  /-- The copy of a node is what the node is. -/
  kind? : ∀ {n}, t.Reachable n → r.kind? (place n) = t.kind? n
  /-- The parent of a copy is the copy of the parent. -/
  parent? : ∀ {n}, t.Reachable n → r.parent? (place n) = (t.parent? n).map place
  /-- The children of a copy are the copies of the children. -/
  children : ∀ {n}, t.Reachable n → r.children (place n) = (t.children n).map place
  /-- Different nodes have different copies. -/
  injective : ∀ {a b}, t.Reachable a → t.Reachable b → place a = place b → a = b

namespace Copies

variable {t r : Tree} {place : NodeId → NodeId} (h : t.Copies r place)
include h

/-- The parent of a reachable node is reachable. -/
theorem reachable_parent {n p : NodeId} (hn : t.Reachable n) (hp : t.parent? n = some p) :
    t.Reachable p := by
  rcases Relation.ReflTransGen.cases_tail hn with hroot | ⟨q, hq, hqn⟩
  · rw [hroot, h.detached] at hp
    cases hp
  · rw [ParentOf, hp] at hqn
    exact Option.some.inj hqn ▸ hq

/-- The copy of a node is the element that the node is. -/
theorem element? {n : NodeId} (hn : t.Reachable n) : r.element? (place n) = t.element? n := by
  rw [element?_eq, element?_eq, h.kind? hn]

/-- A copy is among the copies of reachable nodes only if the node is among them. -/
theorem mem_map_iff {l : List NodeId} (hl : ∀ m ∈ l, t.Reachable m) {n : NodeId}
    (hn : t.Reachable n) : place n ∈ l.map place ↔ n ∈ l := by
  refine ⟨fun hmem => ?_, List.mem_map_of_mem⟩
  obtain ⟨m, hm, heq⟩ := List.mem_map.mp hmem
  exact h.injective (hl m hm) hn heq ▸ hm

/-- What is above a reachable node is reachable. -/
theorem reachable_of_above {a n : NodeId} (hn : t.Reachable n) (ha : t.Above a n) :
    t.Reachable a := by
  induction ha using Relation.TransGen.head_induction_on with
  | single hp => exact h.reachable_parent hn hp
  | head hp _ ih => exact h.reachable_parent ih hp

/-- A simple selector accepts the copies of the nodes that it accepts. -/
theorem accepts (s : Simple) {n : NodeId} (hn : t.Reachable n) :
    s.accepts r.view (place n) = s.accepts t.view n := by
  simp only [Simple.accepts, Tree.view, Tree.source, h.element? hn]

/-! ### Walks -/

variable (ht : t.WellLinked) (hr : r.WellLinked)
include ht

/-- A node that lists a reachable node is reachable. -/
theorem reachable_of_children {p a : NodeId} {before after : List NodeId} (ha : t.Reachable a)
    (hchildren : t.children p = before ++ a :: after) : t.Reachable p :=
  h.reachable_parent ha (ht.parent?_eq_some_iff.mpr (by simp [hchildren]))

include hr

/-- The subtree of a copy is the copy of the subtree. -/
theorem subtree {n : NodeId} (hn : t.Reachable n) :
    r.subtree (place n) = (t.subtree n).map place := by
  induction n using ht.children_induction with
  | step n ih =>
      rw [hr.subtree_eq, ht.subtree_eq, h.children hn, List.map_cons, List.map_flatMap,
        List.flatMap_map]
      congr 1
      exact List.flatMap_congr fun c hc => ih c hc (hn.child ht hc)

/-- What is above a copy is the copy of what is above the node. -/
theorem ancestors {n : NodeId} (hn : t.Reachable n) :
    r.ancestors (place n) = (t.ancestors n).map place := by
  induction ht.wellFounded.apply n with
  | intro n _ ih =>
      have hparent := h.parent? hn
      cases hp : t.parent? n with
      | none =>
          rw [hp] at hparent
          rw [WellLinked.ancestors_of_parent?_eq_none hp,
            WellLinked.ancestors_of_parent?_eq_none hparent]
          rfl
      | some p =>
          rw [hp] at hparent
          rw [ht.ancestors_of_parent? hp, hr.ancestors_of_parent? hparent,
            ih p hp (h.reachable_parent hn hp)]
          rfl

/-- One copy lies above another exactly if the one node lies above the other. -/
theorem above_iff {a n : NodeId} (ha : t.Reachable a) (hn : t.Reachable n) :
    r.Above (place a) (place n) ↔ t.Above a n := by
  rw [← hr.mem_ancestors_iff, ← ht.mem_ancestors_iff, h.ancestors ht hr hn]
  exact h.mem_map_iff (fun m hm => h.reachable_of_above hn (ht.mem_ancestors_iff.mp hm)) ha

/-! ### Combinators -/

/-- A copy stands among the children of a node of the copied tree as the node stands among the
children of its parent. -/
theorem children_eq_append_cons_iff {a q : NodeId} (ha : t.Reachable a)
    {front back : List NodeId} :
    r.children q = front ++ place a :: back ↔
      ∃ p before after, t.children p = before ++ a :: after ∧ q = place p ∧
        front = before.map place ∧ back = after.map place := by
  constructor
  · intro hsplit
    have hparent : (t.parent? a).map place = some q := by
      rw [← h.parent? ha, hr.parent?_eq_some_iff, hsplit]
      simp
    obtain ⟨p, hp, rfl⟩ := Option.map_eq_some_iff.mp hparent
    have hreach := h.reachable_parent ha hp
    rw [h.children hreach, map_eq_append_cons_iff fun x hx heq =>
      h.injective (hreach.child ht hx) ha heq] at hsplit
    obtain ⟨before, after, hchildren, hfront, hback⟩ := hsplit
    exact ⟨p, before, after, hchildren, rfl, hfront, hback⟩
  · rintro ⟨p, before, after, hchildren, rfl, rfl, rfl⟩
    rw [h.children (h.reachable_of_children ht ha hchildren), hchildren]
    simp

/-- Two copies are siblings with certain nodes between them exactly if the nodes are siblings with
nodes between them whose copies these are. -/
theorem exists_siblings_iff {a b : NodeId} (ha : t.Reachable a) (hb : t.Reachable b)
    (P : List NodeId → Prop) :
    (∃ q front inner back, r.children q = front ++ place a :: (inner ++ place b :: back) ∧
      P inner) ↔
    ∃ p before between after, t.children p = before ++ a :: (between ++ b :: after) ∧
      P (between.map place) := by
  constructor
  · rintro ⟨q, front, inner, back, hsplit, hP⟩
    obtain ⟨p, before, rest, hchildren, -, -, hrest⟩ :=
      (h.children_eq_append_cons_iff ht hr ha).mp hsplit
    have hp := h.reachable_of_children ht ha hchildren
    obtain ⟨between, after, rfl, rfl, -⟩ := (map_eq_append_cons_iff fun x hx heq =>
      h.injective (hp.child ht (by simp [hchildren, hx])) hb heq).mp hrest.symm
    exact ⟨p, before, between, after, hchildren, hP⟩
  · rintro ⟨p, before, between, after, hchildren, hP⟩
    refine ⟨place p, before.map place, between.map place, after.map place, ?_, hP⟩
    exact (h.children_eq_append_cons_iff ht hr ha).mpr
      ⟨p, before, _, hchildren, rfl, rfl, by simp⟩

/-- **Copies stand to each other as the nodes do.** -/
theorem links_iff (c : Combinator) {a b : NodeId} (ha : t.Reachable a) (hb : t.Reachable b) :
    c.Links r (place a) (place b) ↔ c.Links t a b := by
  have hchild : place b ∈ r.children (place a) ↔ b ∈ t.children a := by
    rw [h.children ha]
    exact h.mem_map_iff (fun m hm => ha.child ht hm) hb
  have hsame : place b = place a ↔ b = a := ⟨h.injective hb ha, congrArg place⟩
  have helement : ∀ {n}, t.Reachable n → r.isElement (place n) = t.isElement n := fun hn => by
    rw [isElement, h.element? hn, isElement]
  cases c with
  | descendant => exact h.above_iff ht hr ha hb
  | child => exact or_congr hchild hsame
  | reverseChild => exact or_congr hchild hsame
  | nextSibling =>
      refine (h.exists_siblings_iff ht hr ha hb _).trans ?_
      refine exists_congr fun p => exists_congr fun before => exists_congr fun between =>
        exists_congr fun after => and_congr_right fun hchildren => ?_
      have hp := h.reachable_of_children ht ha hchildren
      have hbetween : ∀ m ∈ between, r.isElement (place m) = t.isElement m := fun m hm =>
        helement (hp.child ht (by simp [hchildren, hm]))
      rw [helement hb, List.forall_mem_map]
      exact and_congr_right fun _ => forall₂_congr fun m hm => by rw [hbetween m hm]
  | subsequentSibling =>
      have hsiblings := h.exists_siblings_iff ht hr ha hb fun _ => True
      simp only [and_true] at hsiblings
      exact hsiblings

/-- What a combinator relates is copied. -/
theorem relates (c : Combinator) (right : Simple) {a b : NodeId} (ha : t.Reachable a)
    (hb : t.Reachable b) :
    c.relates r.view right (place a) (place b) = c.relates t.view right a b := by
  have htag : right.acceptsTagOf r.view (place b) = right.acceptsTagOf t.view b := by
    show ((r.element? (place b)).map (·.tag)).any right.acceptsTag = _
    rw [h.element? hb]
    rfl
  rw [Bool.eq_iff_iff, c.relates_iff hr, c.relates_iff ht, h.links_iff ht hr c ha hb, htag]

/-! ### Selectors -/

/-- A filter picks from the subtree of a copy the copies of what it picks from the subtree. -/
theorem filter_subtree {p q : NodeId → Bool} (hpq : ∀ {n}, t.Reachable n → q (place n) = p n)
    {scope : NodeId} (hscope : t.Reachable scope) :
    (r.subtree (place scope)).filter q = ((t.subtree scope).filter p).map place := by
  rw [h.subtree ht hr hscope]
  exact filter_map_of_forall fun n hn => hpq (hscope.of_sublist ht (.refl _) hn)

/-- What a simple selector looks up is copied. -/
theorem candidates (s : Simple) {scope : NodeId} (hscope : t.Reachable scope) :
    s.candidates r.view (place scope) = (s.candidates t.view scope).map place := by
  unfold Simple.candidates
  cases s.id with
  | some id =>
      have hfind : r.elementById? (place scope) id = (t.elementById? scope id).map place := by
        rw [elementById?, elementById?, ← List.head?_filter, ← List.head?_filter, ← List.head?_map]
        exact congrArg List.head? (h.filter_subtree ht hr (fun hn => by rw [h.element? hn]) hscope)
      show (r.elementById? (place scope) id).toList = _
      rw [hfind, Option.toList_map]
      rfl
  | none =>
      cases s.classes with
      | cons name more =>
          refine h.filter_subtree ht hr (fun hn => ?_) hscope
          simp only [Tree.view, Tree.source, Source.isElement, h.element? hn]
      | nil =>
          refine h.filter_subtree ht hr (fun hn => ?_) hscope
          simp only [Tree.view, Tree.source, h.element? hn]

/-- What a simple selector finds is copied. -/
theorem resolve (s : Simple) {scope : NodeId} (hscope : t.Reachable scope) :
    s.resolve r.view (place scope) = (s.resolve t.view scope).map place := by
  rw [Simple.resolve, h.candidates ht hr s hscope, Simple.resolve]
  exact filter_map_of_forall fun n hn =>
    h.accepts s (hscope.of_sublist ht (s.candidates_sublist_subtree t scope) hn)

/-- **What a chain finds is copied.** -/
theorem matchChain (options : Options) {scope : NodeId} (hscope : t.Reachable scope)
    (head : Simple) (rest : List (Combinator × Simple)) :
    Selector.matchChain r.view options (place scope) head rest =
      (Selector.matchChain t.view options scope head rest).map place := by
  induction rest generalizing head with
  | nil => exact h.resolve ht hr head hscope
  | cons step rest ih =>
      obtain ⟨c, right⟩ := step
      have hselect : options.anchorMode.select ((head.resolve t.view scope).map place) =
          (options.anchorMode.select (head.resolve t.view scope)).map place := by
        cases options.anchorMode with
        | first => exact List.map_take.symm
        | every => rfl
      have hanchors : (options.anchorMode.select (head.resolve t.view scope)).Sublist
          (t.subtree scope) :=
        (options.anchorMode.select_sublist _).trans (head.resolve_sublist_subtree t scope)
      have hcandidates : (Selector.matchChain t.view options scope right rest).Sublist
          (t.subtree scope) :=
        Selector.matches_sublist_subtree ⟨right, rest⟩ t options scope
      have hrelates : ∀ a ∈ options.anchorMode.select (head.resolve t.view scope),
          ∀ b ∈ Selector.matchChain t.view options scope right rest,
            c.relates r.view right (place a) (place b) = c.relates t.view right a b :=
        fun a ha b hb => h.relates ht hr c right (hscope.of_sublist ht hanchors ha)
          (hscope.of_sublist ht hcandidates hb)
      rw [Selector.matchChain, Selector.matchChain, h.resolve ht hr head hscope, hselect, ih right]
      split
      · refine filter_map_of_forall fun a ha => ?_
        exact any_map_of_forall (hrelates a ha)
      · refine filter_map_of_forall fun b hb => ?_
        exact any_map_of_forall fun a ha => hrelates a ha b hb

/-- **What a selector list finds is copied**, in the same order and as often. -/
theorem matches_list (list : SelectorList) (options : Options) {scope : NodeId}
    (hscope : t.Reachable scope) :
    list.matches r.view options (place scope) =
      (list.matches t.view options scope).map place := by
  rw [SelectorList.matches, SelectorList.matches, List.map_flatMap]
  exact List.flatMap_congr fun s _ => h.matchChain ht hr options hscope s.head s.rest

end Copies

end Tree

end TreeSelect
