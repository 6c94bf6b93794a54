import TreeSelect.Proofs.Document.Exporting
import TreeSelect.Proofs.Query.Copies
/-!
# A tree rebuilt from its document

A tree that is written as a document and built anew is a copy of what hangs below its root. The new
places are the numbers of the nodes in document order, whatever the old places were. So a query
finds the same nodes in both trees, each under its own place.

## Main definitions

* `Tree.preorder`: the number of a node in document order.

## Main statements

* `Tree.copies_rebuilt`: the rebuilt tree is a copy.
* `Tree.Built.matches_rebuilt`: **what the rebuilt tree holds and what is found in it.**
-/

namespace TreeSelect.Tree

/-- The number of a node in document order, counting from the root as 0. -/
def preorder (t : Tree) (n : NodeId) : NodeId :=
  (t.subtree NodeId.root).idxOf n

/-- The tree that is built from the document of a tree. -/
def rebuilt (t : Tree) : Tree :=
  ofDocument t.toDocument

variable {t : Tree}

/-- The root has number 0. -/
theorem preorder_root (t : Tree) : t.preorder NodeId.root = NodeId.root :=
  List.idxOf_cons_self

/-- The rebuilt tree is well linked. -/
theorem wellLinked_rebuilt (t : Tree) : t.rebuilt.WellLinked :=
  wellLinked_ofDocument t.toDocument

/-! ### Rows of nodes -/

/-- Nodes that are placed one after the other are apart by what is below them: each starts where its
subtree starts in the row of their subtrees. -/
theorem starts_and_placed_of_row {l : List NodeId} (hnodup : (l.flatMap t.subtree).Nodup)
    (hsize : ∀ c ∈ l, (t.shown c).size = (t.subtree c).length) (k : Nat) :
    DocumentNode.starts k (l.map t.shown) = l.map (fun c => k + (l.flatMap t.subtree).idxOf c) ∧
    ∀ {r : Tree}, r.PlacedAll k (l.map t.shown) →
      ∀ c ∈ l, r.Placed (k + (l.flatMap t.subtree).idxOf c) (t.shown c) := by
  induction l generalizing k with
  | nil => exact ⟨rfl, fun _ c hc => by cases hc⟩
  | cons d rest ih =>
      have hrest := (List.nodup_append.mp (List.flatMap_cons ▸ hnodup)).2.1
      have hplace : ∀ c ∈ rest, k + ((d :: rest).flatMap t.subtree).idxOf c =
          k + (t.shown d).size + (rest.flatMap t.subtree).idxOf c := by
        intro c hc
        have hself := List.mem_flatMap.mpr ⟨c, hc, t.mem_subtree_self c⟩
        rw [idxOf_flatMap_subtree_tail hnodup hself, hsize d (by simp), Nat.add_assoc]
      obtain ⟨hstarts, hplaced⟩ :=
        ih hrest (fun c hc => hsize c (List.mem_cons_of_mem _ hc)) (k + (t.shown d).size)
      constructor
      · rw [List.map_cons, DocumentNode.starts, hstarts, List.map_cons,
          idxOf_flatMap_subtree_head, Nat.add_zero]
        exact congrArg (k :: ·) (List.map_congr_left fun c hc => (hplace c hc).symm)
      · intro r hall c hc
        rcases List.mem_cons.mp hc with rfl | hc
        · rw [idxOf_flatMap_subtree_head]
          exact hall.1
        · rw [hplace c hc]
          exact hplaced hall.2 c hc

/-! ### The copy -/

/-- A child stands behind its parent as far as its subtree does among those of the children. -/
theorem preorder_child (h : t.WellLinked) {n c : NodeId} (hn : t.Reachable n)
    (hc : c ∈ t.children n) :
    t.preorder c = t.preorder n + 1 + ((t.children n).flatMap t.subtree).idxOf c := by
  have hbelow : c ∈ t.subtree n :=
    h.mem_subtree_iff.mpr (.single (h.parent?_eq_some_iff.mpr hc))
  rw [preorder, h.idxOf_subtree hn hbelow, h.idxOf_of_mem_children hc (t.mem_subtree_self c),
    preorder, Nat.add_assoc, Nat.add_comm 1]

/-- The document of the rebuilt tree is at the root. -/
theorem rootIsDocument_rebuilt (t : Tree) : t.rebuilt.RootIsDocument := by
  have hextends := extends_graftAll (t := empty) Nat.one_pos t.toDocument
  exact Built.empty.rootIsDocument.of_extends hextends

section Copy

variable (h : t.WellLinked) (hroot : t.RootIsDocument) (hx : t.Exportable)
include h hroot hx

/-- The row of the children of a node. -/
theorem starts_and_placed_of_children (n : NodeId) (k : Nat) :
    DocumentNode.starts k ((t.children n).map t.shown) =
      (t.children n).map (fun c => k + ((t.children n).flatMap t.subtree).idxOf c) ∧
    ∀ {r : Tree}, r.PlacedAll k ((t.children n).map t.shown) →
      ∀ c ∈ t.children n,
        r.Placed (k + ((t.children n).flatMap t.subtree).idxOf c) (t.shown c) := by
  refine starts_and_placed_of_row (h.nodup_flatMap_children n) (fun c hc => ?_) k
  exact hx.size_shown h hroot.2 (h.lt_size_of_mem hc) (h.ne_root_of_mem_children hroot.2 hc)

/-- At the number of a reachable node the rebuilt tree holds what the node is, and behind it what is
exported of its children. -/
theorem rebuilt_at_preorder {n : NodeId} (hn : t.Reachable n) :
    t.rebuilt.kind? (t.preorder n) = t.kind? n ∧
      t.rebuilt.children (t.preorder n) =
        DocumentNode.starts (t.preorder n + 1) ((t.children n).map t.shown) ∧
      t.rebuilt.PlacedAll (t.preorder n + 1) ((t.children n).map t.shown) := by
  induction hn with
  | refl =>
      have hdocument : t.toDocument = (t.children NodeId.root).map t.shown :=
        hx.filterMap_exportNode?_children h hroot.2 NodeId.root
      rw [preorder_root, ← hdocument]
      exact ⟨t.rootIsDocument_rebuilt.1.trans hroot.1.symm,
        children_root_ofDocument t.toDocument, placedAll_ofDocument t.toDocument⟩
  | @tail n c hn hnc ih =>
      have hc : c ∈ t.children n := h.parent?_eq_some_iff.mp hnc
      obtain ⟨hkind, hchildren⟩ := hx.kind?_and_children_shown h hroot.2 (h.lt_size_of_mem hc)
        (h.ne_root_of_mem_children hroot.2 hc)
      have hplaced := (starts_and_placed_of_children h hroot hx n _).2 ih.2.2 c hc
      rw [← preorder_child h hn hc, placed_iff, hchildren] at hplaced
      exact ⟨hplaced.1.trans hkind.symm, hplaced.2⟩

/-- **The rebuilt tree is a copy**, in which each node has its number as its place. -/
theorem copies_rebuilt : t.Copies t.rebuilt t.preorder := by
  have hchildren : ∀ {n}, t.Reachable n →
      t.rebuilt.children (t.preorder n) = (t.children n).map t.preorder := by
    intro n hn
    rw [(rebuilt_at_preorder h hroot hx hn).2.1,
      (starts_and_placed_of_children h hroot hx n _).1]
    exact List.map_congr_left fun c hc => (preorder_child h hn hc).symm
  refine ⟨hroot.2, fun hn => (rebuilt_at_preorder h hroot hx hn).1, fun {n} hn => ?_,
    hchildren, fun {a b} ha _ heq => ?_⟩
  · rcases Relation.ReflTransGen.cases_tail hn with rfl | ⟨p, hp, hpn⟩
    · rw [preorder_root, t.rootIsDocument_rebuilt.2, hroot.2]
      rfl
    · have hn : t.preorder n ∈ t.rebuilt.children (t.preorder p) := by
        rw [hchildren hp]
        exact List.mem_map_of_mem (h.parent?_eq_some_iff.mp hpn)
      rw [t.wellLinked_rebuilt.parent?_eq_some_iff.mpr hn, hpn]
      rfl
  · exact (List.idxOf_inj (h.mem_subtree_iff.mpr ha)).mp heq

end Copy

/-- **What is rebuilt from the document of a tree.** Let a grown tree lose nothing when it is
written as a document. Then the tree that is built from the document has exactly the nodes that the
root of the first leads to, each at its number in document order, with the parent and the children
that it had; and below every such node each selector list finds the same nodes in the same order,
whatever the options. -/
theorem Built.matches_rebuilt {t : Tree} (ht : t.Built) (hx : t.Exportable) :
    (t.subtree NodeId.root).map t.preorder = List.range t.rebuilt.size ∧
    (∀ n, t.Reachable n → t.rebuilt.kind? (t.preorder n) = t.kind? n ∧
      t.rebuilt.parent? (t.preorder n) = (t.parent? n).map t.preorder ∧
      t.rebuilt.children (t.preorder n) = (t.children n).map t.preorder) ∧
    ∀ (list : SelectorList) (options : Options) (scope : NodeId), t.Reachable scope →
      list.matches t.rebuilt.view options (t.preorder scope) =
        (list.matches t.view options scope).map t.preorder := by
  have h := ht.wellLinked
  have hr := t.wellLinked_rebuilt
  have hcopies := copies_rebuilt h ht.rootIsDocument hx
  refine ⟨?_, fun n hn => ⟨hcopies.kind? hn, hcopies.parent? hn, hcopies.children hn⟩,
    fun list options scope => hcopies.matches_list h hr list options⟩
  rw [← hcopies.subtree h hr .refl, preorder_root]
  exact subtree_root_ofDocument t.toDocument

/-- A paragraph behind a text, and behind both a list that was filled before it was attached. The
places are not in document order, and a comment was never attached. -/
def shuffled : Tree :=
  (((((empty.alloc (.element ⟨"ul".toList, .empty⟩)).append 0 (.text ['-'])).append 1
    (.element ⟨"li".toList, .empty⟩)).append 0 (.element ⟨['p'], .empty⟩)).alloc
      (.comment [])).attach 0 1

/-- The list behind a paragraph, and then every item. -/
def askShuffled : SelectorList :=
  [⟨{ tag := some (.named ['p']) }, [(.subsequentSibling, { tag := some (.named "ul".toList) })]⟩,
    ⟨{ tag := some (.named "li".toList) }, []⟩]

/-- The list and its item are found in the rebuilt tree under their numbers. -/
theorem matches_rebuilt_shuffled :
    let options : Options := { siblingResult := .candidate }
    shuffled.Built ∧ shuffled.Exportable ∧ shuffled.rebuilt.size = 5 ∧
      askShuffled.matches shuffled.view options 0 = [1, 3] ∧
      askShuffled.matches shuffled.rebuilt.view options 0 = [3, 4] := by
  intro options
  have hbuilt : shuffled.Built := by
    refine .attach (.alloc _ (.append _ (.append _ (.append _ (.alloc _ .empty) ?_) ?_) ?_))
      ?_ ?_ ?_ ?_ ?_ ?_
    all_goals decide
  have hexportable : shuffled.Exportable := exportable_of_forall_lt (by decide) (by decide)
  have hfound : askShuffled.matches shuffled.view options 0 = [1, 3] := by decide
  obtain ⟨hplaces, -, hmatches⟩ := hbuilt.matches_rebuilt hexportable
  have hsize : 5 = shuffled.rebuilt.size := by
    have hlength := congrArg List.length hplaces
    rwa [List.length_map, List.length_range] at hlength
  have hrebuilt := hmatches askShuffled options 0 .refl
  rw [hfound] at hrebuilt
  exact ⟨hbuilt, hexportable, hsize.symm, hfound, hrebuilt⟩

end TreeSelect.Tree
