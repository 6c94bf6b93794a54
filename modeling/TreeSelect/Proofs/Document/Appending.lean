import TreeSelect.Proofs.Document.Exporting
import TreeSelect.Proofs.Tree.Traversal
/-!
# Appending a node of a document

Appending a node of a document to a grown tree puts the node and everything below it into the places
behind the old ones, in document order, and from each of these places the node that was put there is
exported again. The older nodes are left alone, but for the two links by which the new child is
reached: it is the last child of its parent, and the child before it has it as a neighbour.

A tree that is made from a document is the tree of the document alone with all nodes appended below
its root, so its places are in document order throughout.

## Main definitions

* `DocumentNode.nodes`: a node of a document and everything below it, in document order.

## Main statements

* `Tree.WellLinked.map_exportNode?_of_placed`: what is exported of the places of a placed node.
* `Tree.Built.graft?_exact`: **appending is exact and leaves the rest alone.**
-/

namespace TreeSelect

namespace DocumentNode

mutual

/-- A node of a document and the nodes below it, each with everything below it, in document
order. -/
def nodes : DocumentNode → List DocumentNode
  | .element tag attributes children => .element tag attributes children :: nodesAll children
  | .text content => [.text content]
  | .comment content => [.comment content]

/-- Several nodes of a document and the nodes below them, in document order. -/
def nodesAll : List DocumentNode → List DocumentNode
  | [] => []
  | node :: rest => node.nodes ++ nodesAll rest

end

mutual

/-- A node has as many nodes as its size says. -/
theorem length_nodes : ∀ node : DocumentNode, node.nodes.length = node.size
  | .element tag attributes children => by
      rw [nodes, List.length_cons, length_nodesAll, size]
  | .text content => rfl
  | .comment content => rfl

/-- Several nodes have as many nodes as their sizes say. -/
theorem length_nodesAll : ∀ several : List DocumentNode,
    (nodesAll several).length = sizeAll several
  | [] => rfl
  | node :: rest => by
      rw [nodesAll, List.length_append, length_nodes, length_nodesAll, sizeAll]

end

end DocumentNode

namespace Tree

namespace WellLinked

mutual

/-- From the places of a placed node its nodes are exported, in document order. -/
theorem map_exportNode?_of_placed {t : Tree} (h : t.WellLinked) :
    ∀ {node : DocumentNode} {n : NodeId}, t.Placed n node →
      (List.range' n node.size).map t.exportNode? = node.nodes.map some
  | .element tag attributes children, n, hplaced => by
      have hroot := h.exportNode?_of_placed hplaced
      obtain ⟨-, -, hall⟩ := hplaced
      rw [DocumentNode.size, List.range'_succ, List.map_cons, hroot,
        h.map_exportNode?_of_placedAll hall, DocumentNode.nodes, List.map_cons]
  | .text content, n, hplaced => by
      have hroot := h.exportNode?_of_placed hplaced
      simp [DocumentNode.size, DocumentNode.nodes, hroot]
  | .comment content, n, hplaced => by
      have hroot := h.exportNode?_of_placed hplaced
      simp [DocumentNode.size, DocumentNode.nodes, hroot]

/-- From the places of several placed nodes their nodes are exported, in document order. -/
theorem map_exportNode?_of_placedAll {t : Tree} (h : t.WellLinked) :
    ∀ {several : List DocumentNode} {n : NodeId}, t.PlacedAll n several →
      (List.range' n (DocumentNode.sizeAll several)).map t.exportNode? =
        (DocumentNode.nodesAll several).map some
  | [], _, _ => rfl
  | node :: rest, n, hall => by
      rw [DocumentNode.sizeAll, ← List.range'_append_1, List.map_append,
        h.map_exportNode?_of_placed hall.1, h.map_exportNode?_of_placedAll hall.2,
        DocumentNode.nodesAll, List.map_append]

end

end WellLinked

/-- Below the root of the tree of a document stand all other places, in their order. -/
theorem descendants_root_ofDocument (nodes : List DocumentNode) :
    (ofDocument nodes).descendants NodeId.root =
      List.range' 1 ((ofDocument nodes).size - 1) := by
  have hsize : (ofDocument nodes).size = (ofDocument nodes).size - 1 + 1 := by
    rw [ofDocument, size_graftAll, size_empty]
    omega
  have hall := subtree_root_ofDocument nodes
  rw [hsize, List.range_eq_range', List.range'_succ] at hall
  exact (List.cons.inj hall).2

/-- **Appending is exact and leaves the rest alone.** A node of a document is appended below any
node of a grown tree, and its place is the old size. The tree has grown by the nodes of what was
appended; these are the new places, in document order; and from each of them its node is exported
again, the whole from the first. The parent has one child more, its last. Of an older node nothing
is changed but the children, if it is the parent, and the neighbour behind it, if it was the
parent's last child.

So every document is exported again from its tree, which has its nodes in document order. -/
theorem Built.graft?_exact {t : Tree} (h : t.Built) {parent : NodeId} (hparent : parent < t.size)
    (node : DocumentNode) :
    (∃ t', t.graft? parent node = some (t.size, t') ∧
      t'.size = t.size + node.nodes.length ∧
      t'.subtree t.size = List.range' t.size node.nodes.length ∧
      (List.range' t.size node.nodes.length).map t'.exportNode? = node.nodes.map some ∧
      t'.exportNode? t.size = some node ∧
      t'.parent? t.size = some parent ∧
      t'.children parent = t.children parent ++ [t.size] ∧
      ∀ n < t.size, t'.node? n = (t.node? n).map fun old =>
        { old with
          children := if n = parent then old.children ++ [t.size] else old.children
          next := if (t.children parent).getLast? = some n then some t.size else old.next }) ∧
    ∀ nodes, (ofDocument nodes).toDocument = nodes ∧
      (ofDocument nodes).descendants NodeId.root =
        List.range' 1 ((ofDocument nodes).size - 1) := by
  refine ⟨⟨t.graft parent node, graft?_of_lt hparent node, ?_⟩, fun nodes =>
    ⟨toDocument_ofDocument nodes, descendants_root_ofDocument nodes⟩⟩
  have hw : (t.graft parent node).WellLinked := h.wellLinked.graft hparent node
  have hextends := extends_graft hparent node
  have hplaced := placed_graft hparent node
  have hchildren : (t.graft parent node).children parent = t.children parent ++ [t.size] := by
    rw [hextends.children hparent, if_pos rfl]
  rw [node.length_nodes]
  refine ⟨size_graft t parent node, hw.subtree_of_placed hplaced,
    hw.map_exportNode?_of_placed hplaced, hw.exportNode?_of_placed hplaced, ?_, hchildren, ?_⟩
  · rw [hw.parent?_eq_some_iff, hchildren]
    exact List.mem_append_right _ (List.mem_singleton_self _)
  · intro n hn
    rw [hextends n hn]
    rfl

/-- An item with a text and a comment is appended behind the text of an older item. -/
theorem graft?_exact_lateBranch :
    lateBranch.Built ∧ 2 < lateBranch.size ∧
      ∃ t', lateBranch.graft? 2 (.element ['b'] .empty [.text ['y'], .comment []]) = some (6, t') ∧
        t'.subtree 6 = [6, 7, 8] ∧ t'.children 2 = [4, 6] ∧ t'.next? 4 = some 6 ∧
        t'.node? 1 = lateBranch.node? 1 := by
  have hparent : 2 < lateBranch.size := by decide
  obtain ⟨⟨t', hgraft, -, hsubtree, -, -, -, hchildren, hold⟩, -⟩ :=
    built_lateBranch.graft?_exact hparent (.element ['b'] .empty [.text ['y'], .comment []])
  refine ⟨built_lateBranch, hparent, t', hgraft, hsubtree, hchildren, ?_, ?_⟩
  · rw [next?, hold 4 (by decide)]
    rfl
  · rw [hold 1 (by decide)]
    rfl

end Tree

end TreeSelect
