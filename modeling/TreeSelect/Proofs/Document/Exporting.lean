import TreeSelect.Proofs.Document.Grafting
import TreeSelect.Proofs.Tree.Preorder
/-!
# What a document says of a tree

`Tree.exportNode?` counts down from the size of the tree. In a well-linked tree the count is never
used up, so a node is exported as what it is with what is exported of its children. From this
equation two things follow: what was grafted is exported again, and a tree in which only the
document and elements have children is exported without loss.

## Main definitions

* `Tree.Exportable`: a tree loses nothing when it is written as a document.
* `Tree.shown`: what is exported at a place.

## Main statements

* `WellLinked.exportNode?_eq`: exporting without the count.
* `Tree.toDocument_ofDocument`: **a document is exported again from its tree.**
* `Exportable.kind?_and_children_shown`: what is exported of a tree that loses nothing.
-/

namespace TreeSelect

/-- A node of a document from what it is and what is below it. Only an element shows what is below
it, and the document itself is no node of a document. -/
def Node.Kind.withChildren? : Node.Kind → List DocumentNode → Option DocumentNode
  | .document, _ => none
  | .element e, children => some (.element e.tag e.attributes children)
  | .text content, _ => some (.text content)
  | .comment content, _ => some (.comment content)

namespace Tree

variable {t : Tree}

/-- A node is exported as what it is, with what is exported of its children. -/
theorem exportWithin?_succ_eq (t : Tree) (bound : Nat) (n : NodeId) :
    t.exportWithin? (bound + 1) n = (t.kind? n).bind fun kind =>
      kind.withChildren? ((t.children n).filterMap (t.exportWithin? bound)) := by
  rw [exportWithin?, kind?, children]
  cases hn : t.node? n with
  | none => rfl
  | some node =>
      obtain ⟨kind, _, _, _, _⟩ := node
      cases kind <;> rfl

/-- At a place without a node nothing is exported. -/
theorem exportWithin?_eq_none_of_le (bound : Nat) {n : NodeId} (hn : t.size ≤ n) :
    t.exportWithin? bound n = none := by
  cases bound with
  | zero => rfl
  | succ bound =>
      rw [exportWithin?_succ_eq, kind?, node?_eq_none_of_le hn]
      rfl

namespace WellLinked

/-- Counting down from the missing part of the way up, or from more, nothing is cut off. -/
theorem exportWithin?_succ (h : t.WellLinked) {bound : Nat} {n : NodeId} (hn : n < t.size)
    (hbound : t.size ≤ (t.ancestors n).length + bound) :
    t.exportWithin? (bound + 1) n = t.exportWithin? bound n := by
  induction bound generalizing n with
  | zero =>
      have hlength := h.length_ancestorsWithin_lt t.size hn
      exact absurd hbound (Nat.not_le_of_gt hlength)
  | succ bound ih =>
      have hchildren : (t.children n).filterMap (t.exportWithin? (bound + 1)) =
          (t.children n).filterMap (t.exportWithin? bound) := by
        refine List.filterMap_congr fun c hc => ih (h.lt_size_of_mem hc) ?_
        rw [h.ancestors_of_parent? (h.parent?_eq_some_iff.mpr hc), List.length_cons]
        omega
      rw [exportWithin?_succ_eq, hchildren, ← exportWithin?_succ_eq]

/-- **A node is exported as what it is, with what is exported of its children.** -/
theorem exportNode?_eq (h : t.WellLinked) (n : NodeId) :
    t.exportNode? n = (t.kind? n).bind fun kind =>
      kind.withChildren? ((t.children n).filterMap t.exportNode?) := by
  have hsucc : t.exportWithin? (t.size + 1) n = t.exportNode? n := by
    by_cases hn : n < t.size
    · exact h.exportWithin?_succ hn (Nat.le_add_left _ _)
    · have hle := Nat.le_of_not_lt hn
      rw [exportNode?, exportWithin?_eq_none_of_le _ hle, exportWithin?_eq_none_of_le _ hle]
  rw [← hsucc, exportWithin?_succ_eq]
  rfl

mutual

/-- **A node of a document that was placed is exported again.** -/
theorem exportNode?_of_placed {t : Tree} (h : t.WellLinked) :
    ∀ {node : DocumentNode} {n : NodeId}, t.Placed n node → t.exportNode? n = some node
  | .element tag attributes children, n, hplaced => by
      obtain ⟨hkind, hchildren, hall⟩ := hplaced
      rw [h.exportNode?_eq, hkind, hchildren, h.filterMap_exportNode?_of_placedAll hall]
      rfl
  | .text content, n, hplaced => by
      rw [h.exportNode?_eq, hplaced.1]
      rfl
  | .comment content, n, hplaced => by
      rw [h.exportNode?_eq, hplaced.1]
      rfl

/-- Nodes of a document that were placed are exported again. -/
theorem filterMap_exportNode?_of_placedAll {t : Tree} (h : t.WellLinked) :
    ∀ {nodes : List DocumentNode} {n : NodeId}, t.PlacedAll n nodes →
      (DocumentNode.starts n nodes).filterMap t.exportNode? = nodes
  | [], _, _ => rfl
  | node :: rest, n, hall => by
      rw [DocumentNode.starts, List.filterMap_cons_some (h.exportNode?_of_placed hall.1),
        h.filterMap_exportNode?_of_placedAll hall.2]

end

end WellLinked

/-- **The document of the tree of a document is the document.** -/
theorem toDocument_ofDocument (nodes : List DocumentNode) :
    (ofDocument nodes).toDocument = nodes := by
  rw [toDocument, children_root_ofDocument]
  exact (wellLinked_ofDocument nodes).filterMap_exportNode?_of_placedAll
    (placedAll_ofDocument nodes)

/-! ### Trees that lose nothing -/

/-- A tree loses nothing when it is written as a document: only the document and elements have
children, and no other node is a document. -/
structure Exportable (t : Tree) : Prop where
  /-- Whatever has children is the root or an element. -/
  parents : ∀ n, t.children n ≠ [] → n = NodeId.root ∨ t.isElement n = true
  /-- The document is the root. -/
  documents : ∀ n, t.kind? n = some .document → n = NodeId.root

/-- Whether a tree loses nothing is seen by looking at its nodes. -/
theorem exportable_of_forall_lt
    (hparents : ∀ n < t.size, t.children n ≠ [] → n = NodeId.root ∨ t.isElement n = true)
    (hdocuments : ∀ n < t.size, t.kind? n = some .document → n = NodeId.root) :
    t.Exportable := by
  refine ⟨fun n hn => ?_, fun n hn => ?_⟩
  · obtain ⟨c, hc⟩ := List.exists_mem_of_ne_nil _ hn
    exact hparents n (lt_size_of_mem_children hc) hn
  · exact hdocuments n (kind?_isSome_iff.mp (by rw [hn, Option.isSome_some])) hn

/-- A child is not the root if the root has no parent. -/
theorem WellLinked.ne_root_of_mem_children (h : t.WellLinked)
    (hroot : t.parent? NodeId.root = none) {n c : NodeId} (hc : c ∈ t.children n) :
    c ≠ NodeId.root := by
  rintro rfl
  exact h.not_mem_children hroot n hc

/-- What is exported at a place where something is. -/
def shown (t : Tree) (n : NodeId) : DocumentNode :=
  (t.exportNode? n).getD default

/-- If of each of several nodes as much is exported as its subtree has nodes, then so it is of all
of them. -/
theorem sizeAll_map_shown {l : List NodeId}
    (h : ∀ c ∈ l, (t.shown c).size = (t.subtree c).length) :
    DocumentNode.sizeAll (l.map t.shown) = (l.flatMap t.subtree).length := by
  induction l with
  | nil => rfl
  | cons c rest ih =>
      rw [List.map_cons, DocumentNode.sizeAll, h c (by simp),
        ih fun d hd => h d (List.mem_cons_of_mem _ hd), List.flatMap_cons, List.length_append]

namespace Exportable

variable (hx : t.Exportable) (h : t.WellLinked) (hroot : t.parent? NodeId.root = none)
include hx h

/-- Every node other than the root is exported. -/
theorem exportNode?_eq_some_shown {n : NodeId} (hn : n < t.size) (hne : n ≠ NodeId.root) :
    t.exportNode? n = some (t.shown n) := by
  obtain ⟨kind, hkind⟩ := Option.isSome_iff_exists.mp (kind?_isSome_iff.mpr hn)
  have hsome : ∃ shown, t.exportNode? n = some shown := by
    rw [h.exportNode?_eq, hkind]
    cases kind with
    | document => exact absurd (hx.documents n hkind) hne
    | element e => exact ⟨_, rfl⟩
    | text content => exact ⟨_, rfl⟩
    | comment content => exact ⟨_, rfl⟩
  obtain ⟨shown, hshown⟩ := hsome
  rw [Tree.shown, hshown]
  rfl

include hroot

/-- Every child is exported. -/
theorem filterMap_exportNode?_children (n : NodeId) :
    (t.children n).filterMap t.exportNode? = (t.children n).map t.shown := by
  refine List.filterMap_eq_map_iff_forall_eq_some.mpr fun c hc => ?_
  exact hx.exportNode?_eq_some_shown h (h.lt_size_of_mem hc) (h.ne_root_of_mem_children hroot hc)

omit h hroot in
/-- A node that is neither the root nor an element has no children. -/
theorem children_eq_nil {n : NodeId} {kind : Node.Kind} (hne : n ≠ NodeId.root)
    (hkind : t.kind? n = some kind) (hleaf : kind.element? = none) : t.children n = [] := by
  by_contra hchildren
  rcases hx.parents n hchildren with hn | helement
  · exact hne hn
  · rw [isElement, element?_eq, hkind, Option.bind_some, hleaf] at helement
    cases helement

/-- **A node other than the root is exported as what it is**, with what is exported of its
children. -/
theorem kind?_and_children_shown {n : NodeId} (hn : n < t.size) (hne : n ≠ NodeId.root) :
    t.kind? n = some (t.shown n).kind ∧ (t.shown n).children = (t.children n).map t.shown := by
  have hshown := hx.exportNode?_eq_some_shown h hn hne
  rw [h.exportNode?_eq, hx.filterMap_exportNode?_children h hroot] at hshown
  obtain ⟨kind, hkind, hshown⟩ := Option.bind_eq_some_iff.mp hshown
  cases kind with
  | document => cases hshown
  | element e =>
      rw [hkind, ← Option.some.inj hshown]
      exact ⟨rfl, rfl⟩
  | text content =>
      rw [hkind, ← Option.some.inj hshown, hx.children_eq_nil hne hkind rfl]
      exact ⟨rfl, rfl⟩
  | comment content =>
      rw [hkind, ← Option.some.inj hshown, hx.children_eq_nil hne hkind rfl]
      exact ⟨rfl, rfl⟩

/-- A node other than the root is exported with everything below it. -/
theorem size_shown {n : NodeId} (hn : n < t.size) (hne : n ≠ NodeId.root) :
    (t.shown n).size = (t.subtree n).length := by
  induction n using h.children_induction with
  | step n ih =>
      have hall := sizeAll_map_shown fun c hc =>
        ih c hc (h.lt_size_of_mem hc) (h.ne_root_of_mem_children hroot hc)
      rw [DocumentNode.size_eq, (hx.kind?_and_children_shown h hroot hn hne).2, hall, h.subtree_eq,
        List.length_cons]

end Exportable

end Tree

end TreeSelect
