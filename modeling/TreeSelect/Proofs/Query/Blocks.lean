import TreeSelect.CommandLine.Run
import TreeSelect.Proofs.Query.Chain
import TreeSelect.Proofs.Query.ClosedForm
import TreeSelect.Proofs.Query.Lookups
import TreeSelect.Proofs.Query.Remembering
import TreeSelect.Proofs.Tree.Preorder
/-!
# The shape of an answer

A query is answered alternative by alternative. What one alternative contributes is cut out of what
a single simple selector of it finds: each combinator filters either its anchors or its candidates,
so everything that is reported was found at one end or the other, and which end that is does not
depend on the tree. Hence an alternative reports elements in document order, each once, although
two alternatives may report one element twice.

## Main definitions

* `Selector.reported`: the simple selector whose matches a chain reports.

## Main statements

* `Selector.matches_sublist_resolve`: a chain reports some of what that simple selector finds.
* `Engine.query_eq_flatten_blocks`: **what the answer to a query looks like.**
-/

namespace TreeSelect

namespace Selector

/-- Left of each combinator, and behind the last one, stands a simple selector. -/
theorem findIdx_combinators_lt (s : Selector) (p : Combinator → Bool) :
    s.combinators.findIdx p < s.simples.length := by
  have hle : s.combinators.findIdx p ≤ s.combinators.length := List.findIdx_le_length
  rw [length_simples, ← length_combinators]
  exact Nat.lt_succ_of_le hle

/-- The simple selector whose matches a chain reports: the one on the left of the first combinator
whose anchors are reported, or the last one if there is no such combinator. -/
def reported (s : Selector) (options : Options) : Simple :=
  s.simples.get ⟨_, s.findIdx_combinators_lt fun c => decide (c.ReportsLeft options)⟩

/-- A chain of one simple selector reports the matches of that selector. -/
@[simp] theorem reported_singleton (head : Simple) (options : Options) :
    reported ⟨head, []⟩ options = head :=
  rfl

/-- A longer chain reports the matches of its head or what its remainder reports. -/
theorem reported_cons (head right : Simple) (c : Combinator) (rest : List (Combinator × Simple))
    (options : Options) :
    reported ⟨head, (c, right) :: rest⟩ options =
      if c.ReportsLeft options then head else reported ⟨right, rest⟩ options := by
  by_cases hreport : c.ReportsLeft options <;>
    simp [reported, simples, combinators, List.findIdx_cons, hreport]

variable {ν : Type} [DecidableEq ν]

/-- **A chain reports some of what one simple selector finds**, in the same order. -/
theorem matches_sublist_resolve (s : Selector) (v : View ν) (options : Options) (scope : ν) :
    (s.matches v options scope).Sublist ((s.reported options).resolve v scope) := by
  obtain ⟨head, rest⟩ := s
  show (matchChain v options scope head rest).Sublist _
  induction rest generalizing head with
  | nil =>
      rw [reported_singleton]
      exact List.Sublist.refl _
  | cons step rest ih =>
      obtain ⟨c, right⟩ := step
      by_cases hreport : c.ReportsLeft options
      · rw [matchChain, reported_cons, if_pos hreport,
          if_pos (Combinator.reportsAnchor_iff.mpr hreport)]
        exact List.filter_sublist.trans (options.anchorMode.select_sublist _)
      · rw [matchChain, reported_cons, if_neg hreport,
          if_neg (mt Combinator.reportsAnchor_iff.mp hreport)]
        exact List.filter_sublist.trans (ih right)

end Selector

/-- What is found first in a list is a part of the list. -/
theorem toList_find?_sublist {α : Type} (p : α → Bool) (l : List α) :
    (l.find? p).toList.Sublist l := by
  cases hfind : l.find? p with
  | none => exact List.nil_sublist l
  | some a => exact List.singleton_sublist.mpr (List.mem_of_find?_eq_some hfind)

/-- Every lookup finds a part of the subtree, in document order. -/
theorem Simple.candidates_sublist_subtree (s : Simple) (t : Tree) (scope : NodeId) :
    (s.candidates t.view scope).Sublist (t.subtree scope) := by
  cases hid : s.id with
  | none =>
      obtain ⟨found, hfound⟩ := exists_candidates_eq_filter hid t.view scope
      rw [hfound]
      exact List.filter_sublist
  | some id =>
      rw [candidates_of_id hid]
      exact toList_find?_sublist _ _

/-- A simple selector finds a part of the subtree, in document order. -/
theorem Simple.resolve_sublist_subtree (s : Simple) (t : Tree) (scope : NodeId) :
    (s.resolve t.view scope).Sublist (t.subtree scope) :=
  List.filter_sublist.trans (s.candidates_sublist_subtree t scope)

/-- A chain finds a part of the subtree, in document order. -/
theorem Selector.matches_sublist_subtree (s : Selector) (t : Tree) (options : Options)
    (scope : NodeId) : (s.matches t.view options scope).Sublist (t.subtree scope) :=
  (s.matches_sublist_resolve t.view options scope).trans
    ((s.reported options).resolve_sublist_subtree t scope)

/-- Every match that is an element has its record. -/
theorem CommandLine.forall₂_matchJson? {t : Tree} {found : List NodeId}
    (h : ∀ n ∈ found, t.isElement n = true) :
    List.Forall₂ (fun n record => matchJson? t n = some record) found
      (found.filterMap (matchJson? t)) := by
  induction found with
  | nil => exact .nil
  | cons n rest ih =>
      obtain ⟨e, he⟩ := Option.isSome_iff_exists.mp (h n (by simp))
      have hrecord : (matchJson? t n).isSome = true := by simp [matchJson?, he]
      obtain ⟨record, hrecord⟩ := Option.isSome_iff_exists.mp hrecord
      rw [List.filterMap_cons_some hrecord]
      exact .cons hrecord (ih fun m hm => h m (List.mem_cons_of_mem _ hm))

/-- What one alternative finds: elements at or below the scope, in document order and each once,
that the reported simple selector accepts. -/
structure Selector.IsBlock (s : Selector) (t : Tree) (options : Options) (scope : NodeId)
    (block : List NodeId) : Prop where
  /-- The nodes stand in document order. -/
  increasing : block.Pairwise fun a b => (t.subtree scope).idxOf a < (t.subtree scope).idxOf b
  /-- No node stands twice. -/
  nodup : block.Nodup
  /-- All nodes are at or below the scope. -/
  inside : ∀ n ∈ block, t.AtOrBelow n scope
  /-- All nodes are elements. -/
  elements : ∀ n ∈ block, t.isElement n = true
  /-- All nodes satisfy the reported simple selector. -/
  accepted : ∀ n ∈ block, (s.reported options).accepts t.view n = true

/-- What an alternative finds in a well-linked tree is a block. -/
theorem Selector.isBlock_matches {t : Tree} (h : t.WellLinked) (s : Selector) (options : Options)
    (scope : NodeId) : s.IsBlock t options scope (s.matches t.view options scope) := by
  have hresolve := s.matches_sublist_resolve t.view options scope
  have hsubtree := s.matches_sublist_subtree t options scope
  have haccepted : ∀ n ∈ s.matches t.view options scope,
      (s.reported options).accepts t.view n = true := fun n hn =>
    (List.mem_filter.mp (hresolve.subset hn)).2
  refine ⟨h.pairwise_of_sublist_subtree hsubtree, (h.nodup_subtree scope).sublist hsubtree,
    fun n hn => h.mem_subtree_iff.mp (hsubtree.subset hn), fun n hn => ?_, haccepted⟩
  rw [← Tree.isElement_source]
  exact Simple.isElement_of_accepts (haccepted n hn)

/-- **What the answer to a query looks like.** Below every node of a grown tree, and whatever the
engine was asked before, the answer consists of one block for each alternative of the text, in the
order of the alternatives. Written as JSON it has a record for each match. -/
theorem Engine.query_eq_flatten_blocks {t : Tree} (ht : t.Built) {e : Engine}
    (he : e.memory.Reached) (lookup : Tree.Lookup) (options : Options) (text : Text)
    (scope : NodeId) :
    let found := (e.query (t.viewBy lookup) options text (.node scope)).1
    (∃ blocks, found = blocks.flatten ∧
      List.Forall₂ (fun s block => s.IsBlock t options scope block) (SelectorList.parse text)
        blocks) ∧
    ∃ records,
      List.Forall₂ (fun n record => CommandLine.matchJson? t n = some record) found records ∧
        CommandLine.matchesJson t found =
          CommandLine.unlines [(Json.array records).pretty 0] := by
  intro found
  have hview : t.viewBy lookup = t.view := by
    cases lookup
    · rfl
    · exact ht.wellLinked.source_view
  have hfound : found = ((SelectorList.parse text).map fun s =>
      s.matches t.view options scope).flatten := by
    show (e.query (t.viewBy lookup) options text (.node scope)).1 = _
    rw [hview, query_fst he.faithful]
    exact List.flatMap_def
  have hblock := fun s => Selector.isBlock_matches ht.wellLinked s options scope
  refine ⟨⟨_, hfound, ?_⟩, _, CommandLine.forall₂_matchJson? fun n hn => ?_, rfl⟩
  · rw [List.forall₂_map_right_iff, List.forall₂_same]
    exact fun s _ => hblock s
  · rw [hfound, List.mem_flatten] at hn
    obtain ⟨_, hmem, hn⟩ := hn
    obtain ⟨s, -, rfl⟩ := List.mem_map.mp hmem
    exact (hblock s).elements n hn

/-- Of three nested elements the middle one is reported for its child, and then everything that is
below something: two blocks, in which the middle element stands twice and has two records. -/
theorem Engine.query_eq_flatten_blocks_nestedThree :
    let options : Options := { anchorMode := .every }
    let text := "b < c, * *".toList
    Selector.nestedThree.Built ∧
      (query {} (Selector.nestedThree.viewBy .scanning) options text (.node 0)).1 = [2, 2, 3] ∧
      ∃ records, List.Forall₂ (fun n record =>
        CommandLine.matchJson? Selector.nestedThree n = some record) [2, 2, 3] records := by
  intro options text
  have hanswer := query_eq_flatten_blocks Selector.built_nestedThree (e := {})
    ⟨{}, [], rfl, rfl⟩ .scanning options text 0
  have hfound : (query {} (Selector.nestedThree.viewBy .scanning) options text (.node 0)).1 =
      [2, 2, 3] := by decide +kernel
  obtain ⟨-, records, hrecords, -⟩ := hanswer
  exact ⟨Selector.built_nestedThree, hfound, records, hfound ▸ hrecords⟩

end TreeSelect
