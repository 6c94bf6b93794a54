import TreeSelect.Proofs.Tree.Siblings
/-!
# What grafting does to a tree

Grafting fills the places behind the old ones with the nodes of a document in document order. Of
the older nodes it changes two: the new parent has one more child, and its former last child has a
neighbour behind it.

`Placed` says the first and `Extends` the second. Both are about places, so the proofs go by
recursion on the document, each node being grafted into a tree that has already grown.

## Main definitions

* `Tree.kind?`: what the node at a place is.
* `Tree.Extends`: the older nodes of a tree after children were added to one of them.
* `Tree.Placed`: the places from a given one on hold a node of a document with everything below it.

## Main statements

* `Tree.extends_graft`: grafting leaves the older nodes alone.
* `Tree.placed_graft`: **the new places hold what was grafted, in document order.**
-/

namespace TreeSelect

/-- The element that a node is. -/
def Node.Kind.element? : Node.Kind → Option Element
  | .element e => some e
  | _ => none

namespace DocumentNode

/-- What a node of a document is, without what is below it. -/
def kind : DocumentNode → Node.Kind
  | .element tag attributes _ => .element ⟨tag, attributes⟩
  | .text content => .text content
  | .comment content => .comment content

/-- The nodes right below a node of a document. -/
def children : DocumentNode → List DocumentNode
  | .element _ _ children => children
  | _ => []

/-- A node counts for one, besides what is below it. -/
theorem size_eq (node : DocumentNode) : node.size = sizeAll node.children + 1 := by
  cases node <;> rfl

/-- The places of several nodes if they and everything below them are placed from a given place
on. -/
def starts : NodeId → List DocumentNode → List NodeId
  | _, [] => []
  | n, node :: rest => n :: starts (n + node.size) rest

end DocumentNode

namespace Tree

variable {t t' t'' : Tree} {parent : NodeId}

/-- What the node at a place is. -/
def kind? (t : Tree) (n : NodeId) : Option Node.Kind :=
  (t.node? n).map (·.kind)

/-- There is a node at each place below the size. -/
theorem kind?_isSome_iff {n : NodeId} : (t.kind? n).isSome ↔ n < t.size := by
  rw [kind?, Option.isSome_map, node?_isSome_iff]

/-- The element at a place is told by what the node there is. -/
theorem element?_eq (t : Tree) (n : NodeId) : t.element? n = (t.kind? n).bind (·.element?) := by
  rw [element?, kind?]
  cases t.node? n with
  | none => rfl
  | some node =>
      obtain ⟨kind, _, _, _, _⟩ := node
      cases kind <;> rfl

/-! ### The older nodes -/

/-- An older node after children were added behind those of a node: that node has them, and the
child that was its last has the first of them as its neighbour. -/
def withAdded (t : Tree) (parent : NodeId) (added : List NodeId) (n : NodeId) (node : Node) :
    Node :=
  { node with
    children := if n = parent then node.children ++ added else node.children
    next := if (t.children parent).getLast? = some n then added.head?.or node.next else node.next }

/-- One tree is another with children added behind those of a node. -/
def Extends (t t' : Tree) (parent : NodeId) (added : List NodeId) : Prop :=
  ∀ n < t.size, t'.node? n = (t.node? n).map (t.withAdded parent added n)

namespace Extends

variable {added more : List NodeId}

/-- A tree is itself with no children added. -/
theorem refl (t : Tree) (parent : NodeId) : t.Extends t parent [] := by
  intro n _
  cases hn : t.node? n with
  | none => rfl
  | some node => simp [withAdded]

/-- The older nodes are what they were. -/
theorem kind? (h : t.Extends t' parent added) {n : NodeId} (hn : n < t.size) :
    t'.kind? n = t.kind? n := by
  rw [Tree.kind?, h n hn, Option.map_map]
  rfl

/-- The older nodes keep their parents. -/
theorem parent? (h : t.Extends t' parent added) {n : NodeId} (hn : n < t.size) :
    t'.parent? n = t.parent? n := by
  rw [Tree.parent?, h n hn, Option.bind_map]
  rfl

/-- The older nodes keep their children, and one of them gets the new ones. -/
theorem children (h : t.Extends t' parent added) {n : NodeId} (hn : n < t.size) :
    t'.children n = if n = parent then t.children n ++ added else t.children n := by
  obtain ⟨node, hnode⟩ := Option.isSome_iff_exists.mp (node?_isSome_iff.mpr hn)
  simp [Tree.children, h n hn, hnode, withAdded]

/-- What is added below a new node without children changes nothing for the older ones. -/
theorem trans_new (h : t.Extends t' parent added) (hsize : t.size < t'.size)
    (hbare : t'.children t.size = []) (h' : t'.Extends t'' t.size more) :
    t.Extends t'' parent added := by
  intro n hn
  rw [h' n (Nat.lt_trans hn hsize), h n hn, Option.map_map]
  congr 1
  funext node
  simp [withAdded, Nat.ne_of_lt hn, hbare]

/-- Children are added one after the other. -/
theorem trans (h : t.Extends t' parent [t.size]) (hsize : t.size < t'.size)
    (hparent : parent < t.size) (h' : t'.Extends t'' parent more) :
    t.Extends t'' parent (t.size :: more) := by
  intro n hn
  -- the last child is no older node by now
  have hlast : (t'.children parent).getLast? ≠ some n := by
    rw [h.children hparent, if_pos rfl, List.getLast?_concat]
    exact fun heq => Nat.ne_of_gt hn (Option.some.inj heq)
  rw [h' n (Nat.lt_trans hn hsize), h n hn, Option.map_map]
  congr 1
  funext node
  by_cases hne : n = parent
  · subst hne
    simp [withAdded, hlast]
  · simp [withAdded, hne, hlast]

end Extends

/-- Adding a detached node adds no child. -/
theorem extends_alloc (t : Tree) (parent : NodeId) (kind : Node.Kind) :
    t.Extends (t.alloc kind) parent [] := by
  intro n hn
  rw [node?_alloc, if_neg (Nat.ne_of_lt hn)]
  exact Extends.refl t parent n hn

/-- Appending a node adds one child. -/
theorem extends_append (t : Tree) (parent : NodeId) (kind : Node.Kind) :
    t.Extends (t.append parent kind) parent [t.size] := by
  intro n hn
  have hne : n ≠ t.size := Nat.ne_of_lt hn
  have halloc : (t.alloc kind).node? n = t.node? n := by rw [node?_alloc, if_neg hne]
  rw [append, node?_attach, halloc]
  congr 1
  funext node
  simp [hne, withAdded]

/-- A new node has no children. -/
theorem children_append_new (hparent : parent < t.size) (kind : Node.Kind) :
    (t.append parent kind).children t.size = [] := by
  have hparent' : parent < (t.alloc kind).size := size_alloc t kind ▸ Nat.lt_succ_of_lt hparent
  rw [append, children_attach hparent', if_neg (Nat.ne_of_gt hparent), children_alloc, children,
    node?_eq_none_of_le (Nat.le_refl _)]
  rfl

/-- A new node is what was appended. -/
theorem kind?_append_new (t : Tree) (parent : NodeId) (kind : Node.Kind) :
    (t.append parent kind).kind? t.size = some kind := by
  rw [kind?, append, kind_node?_attach, node?_alloc, if_pos rfl]
  rfl

mutual

/-- **Grafting a node leaves the older nodes alone**, but that one of them gets a child. -/
theorem extends_graft {t : Tree} {parent : NodeId} (hparent : parent < t.size) :
    ∀ node : DocumentNode, t.Extends (t.graft parent node) parent [t.size]
  | .element tag attributes children => by
      rw [graft]
      have hsize : t.size < (t.append parent (.element ⟨tag, attributes⟩)).size :=
        size_append t _ _ ▸ Nat.lt_succ_self _
      exact (t.extends_append parent _).trans_new hsize (children_append_new hparent _)
        (extends_graftAll hsize children)
  | .text content => by
      rw [graft]
      exact t.extends_append parent _
  | .comment content => by
      rw [graft]
      exact t.extends_append parent _

/-- Grafting several nodes leaves the older nodes alone, but that one of them gets children. -/
theorem extends_graftAll {t : Tree} {parent : NodeId} (hparent : parent < t.size) :
    ∀ nodes : List DocumentNode,
      t.Extends (t.graftAll parent nodes) parent (DocumentNode.starts t.size nodes)
  | [] => by
      rw [graftAll]
      exact .refl t parent
  | node :: rest => by
      have hsize : t.size < (t.graft parent node).size := by
        rw [size_graft, node.size_eq]
        omega
      have hrest := extends_graftAll (Nat.lt_trans hparent hsize) rest
      rw [size_graft] at hrest
      rw [graftAll]
      exact (extends_graft hparent node).trans hsize hparent hrest

end

/-! ### The new nodes -/

mutual

/-- The places from a given one on hold a node of a document and everything below it, in document
order. -/
def Placed (t : Tree) (n : NodeId) : DocumentNode → Prop
  | .element tag attributes children =>
      t.kind? n = some (.element ⟨tag, attributes⟩) ∧
        t.children n = DocumentNode.starts (n + 1) children ∧ PlacedAll t (n + 1) children
  | .text content => t.kind? n = some (.text content) ∧ t.children n = []
  | .comment content => t.kind? n = some (.comment content) ∧ t.children n = []

/-- The places from a given one on hold several nodes of a document, one after the other. -/
def PlacedAll (t : Tree) (n : NodeId) : List DocumentNode → Prop
  | [] => True
  | node :: rest => Placed t n node ∧ PlacedAll t (n + node.size) rest

end

/-- A place holds a node of a document if it holds what the node is, its children are the places
that follow, and these hold what is below the node. -/
theorem placed_iff {n : NodeId} {node : DocumentNode} :
    t.Placed n node ↔ t.kind? n = some node.kind ∧
      t.children n = DocumentNode.starts (n + 1) node.children ∧
        t.PlacedAll (n + 1) node.children := by
  cases node <;> simp [Placed, PlacedAll, DocumentNode.kind, DocumentNode.children,
    DocumentNode.starts]

mutual

/-- Whether a node of a document is placed depends on its places only. -/
theorem Placed.congr {t t' : Tree} : ∀ {node : DocumentNode} {n : Nat}, t.Placed n node →
    (∀ m : Nat, n ≤ m → m < n + node.size → t'.kind? m = t.kind? m ∧ t'.children m = t.children m) →
    t'.Placed n node
  | .element tag attributes children, n, h, hsame => by
      obtain ⟨hkind, hchildren, hall⟩ := h
      obtain ⟨hkind', hchildren'⟩ := hsame n (Nat.le_refl n) (by simp [DocumentNode.size])
      refine ⟨hkind'.trans hkind, hchildren'.trans hchildren, PlacedAll.congr hall ?_⟩
      intro m hle hlt
      exact hsame m (Nat.le_of_succ_le hle) (by rw [DocumentNode.size]; omega)
  | .text content, n, h, hsame => by
      obtain ⟨hkind', hchildren'⟩ := hsame n (Nat.le_refl n) (by simp [DocumentNode.size])
      exact ⟨hkind'.trans h.1, hchildren'.trans h.2⟩
  | .comment content, n, h, hsame => by
      obtain ⟨hkind', hchildren'⟩ := hsame n (Nat.le_refl n) (by simp [DocumentNode.size])
      exact ⟨hkind'.trans h.1, hchildren'.trans h.2⟩

/-- Whether nodes of a document are placed depends on their places only. -/
theorem PlacedAll.congr {t t' : Tree} : ∀ {nodes : List DocumentNode} {n : Nat},
    t.PlacedAll n nodes →
    (∀ m : Nat, n ≤ m → m < n + DocumentNode.sizeAll nodes →
      t'.kind? m = t.kind? m ∧ t'.children m = t.children m) →
    t'.PlacedAll n nodes
  | [], _, _, _ => trivial
  | node :: rest, n, h, hsame => by
      rw [DocumentNode.sizeAll] at hsame
      exact ⟨Placed.congr h.1 fun m hle hlt => hsame m hle (by omega),
        PlacedAll.congr h.2 fun m hle hlt => hsame m (by omega) (by omega)⟩

end

mutual

/-- **The new places hold what was grafted, in document order.** -/
theorem placed_graft {t : Tree} {parent : NodeId} (hparent : parent < t.size) :
    ∀ node : DocumentNode, (t.graft parent node).Placed t.size node
  | .element tag attributes children => by
      rw [graft]
      have hsize := size_append t parent (.element ⟨tag, attributes⟩)
      have hnew : t.size < (t.append parent (.element ⟨tag, attributes⟩)).size :=
        hsize ▸ Nat.lt_succ_self _
      have hextends := extends_graftAll hnew children
      have hall := placedAll_graftAll hnew children
      rw [hsize] at hextends hall
      refine ⟨?_, ?_, hall⟩
      · rw [hextends.kind? hnew, kind?_append_new]
      · rw [hextends.children hnew, if_pos rfl, children_append_new hparent, List.nil_append]
  | .text content => by
      rw [graft]
      exact ⟨kind?_append_new t parent _, children_append_new hparent _⟩
  | .comment content => by
      rw [graft]
      exact ⟨kind?_append_new t parent _, children_append_new hparent _⟩

/-- The new places hold the nodes that were grafted, one after the other. -/
theorem placedAll_graftAll {t : Tree} {parent : NodeId} (hparent : parent < t.size) :
    ∀ nodes : List DocumentNode, (t.graftAll parent nodes).PlacedAll t.size nodes
  | [] => trivial
  | node :: rest => by
      have hsize := size_graft t parent node
      have hparent' : parent < (t.graft parent node).size :=
        hsize ▸ Nat.lt_add_right _ hparent
      have hextends := extends_graftAll hparent' rest
      have hall := placedAll_graftAll hparent' rest
      rw [graftAll]
      refine ⟨(placed_graft hparent node).congr fun m hle hlt => ?_, hsize ▸ hall⟩
      -- the nodes that come later change none of these places
      have hm : m < (t.graft parent node).size := hsize ▸ hlt
      have hne : m ≠ parent := Nat.ne_of_gt (Nat.lt_of_lt_of_le hparent hle)
      exact ⟨hextends.kind? hm, by rw [hextends.children hm, if_neg hne]⟩

end

/-! ### The subtrees of the new nodes -/

namespace WellLinked

mutual

/-- Everything below a placed node is in the places that follow it. -/
theorem subtree_of_placed {t : Tree} (h : t.WellLinked) :
    ∀ {node : DocumentNode} {n : NodeId}, t.Placed n node →
      t.subtree n = List.range' n node.size
  | .element tag attributes children, n, hplaced => by
      obtain ⟨-, hchildren, hall⟩ := hplaced
      rw [h.subtree_eq, hchildren, h.flatMap_subtree_of_placedAll hall, DocumentNode.size,
        List.range'_succ]
  | .text content, n, hplaced => by
      rw [h.subtree_eq, hplaced.2]
      rfl
  | .comment content, n, hplaced => by
      rw [h.subtree_eq, hplaced.2]
      rfl

/-- Everything below several placed nodes is in the places that follow, in their order. -/
theorem flatMap_subtree_of_placedAll {t : Tree} (h : t.WellLinked) :
    ∀ {nodes : List DocumentNode} {n : NodeId}, t.PlacedAll n nodes →
      (DocumentNode.starts n nodes).flatMap t.subtree =
        List.range' n (DocumentNode.sizeAll nodes)
  | [], _, _ => rfl
  | node :: rest, n, hall => by
      rw [DocumentNode.starts, List.flatMap_cons, h.subtree_of_placed hall.1,
        h.flatMap_subtree_of_placedAll hall.2, DocumentNode.sizeAll, List.range'_append_1]

end

end WellLinked

/-! ### The tree of a document -/

/-- The root is the document, and it has no parent. -/
def RootIsDocument (t : Tree) : Prop :=
  t.kind? NodeId.root = some .document ∧ t.parent? NodeId.root = none

/-- Adding children leaves the document at the root. -/
theorem RootIsDocument.of_extends {added : List NodeId} (h : t.RootIsDocument)
    (hextends : t.Extends t' parent added) : t'.RootIsDocument := by
  have hroot : NodeId.root < t.size := kind?_isSome_iff.mp (by rw [h.1, Option.isSome_some])
  exact ⟨(hextends.kind? hroot).trans h.1, (hextends.parent? hroot).trans h.2⟩

/-- The root of every grown tree is the document. -/
theorem Built.rootIsDocument (h : t.Built) : t.RootIsDocument := by
  induction h with
  | empty => exact ⟨rfl, rfl⟩
  | alloc kind _ ih => exact ih.of_extends (extends_alloc _ NodeId.root kind)
  | append kind _ _ ih => exact ih.of_extends (extends_append _ _ kind)
  | graft node _ hparent ih => exact ih.of_extends (extends_graft hparent node)
  | attach _ _ hchild hroot _ _ _ ih =>
      refine ⟨(kind_node?_attach _ _ _ _).trans ih.1, ?_⟩
      rw [parent?_attach hchild, if_neg hroot.symm]
      exact ih.2

/-- The tree of a document holds the document behind the root. -/
theorem placedAll_ofDocument (nodes : List DocumentNode) :
    (ofDocument nodes).PlacedAll 1 nodes :=
  placedAll_graftAll (t := empty) Nat.one_pos nodes

/-- The root of the tree of a document has the nodes of the document as its children. -/
theorem children_root_ofDocument (nodes : List DocumentNode) :
    (ofDocument nodes).children NodeId.root = DocumentNode.starts 1 nodes := by
  have hextends := extends_graftAll (t := empty) Nat.one_pos nodes
  exact hextends.children Nat.one_pos

/-- A tree has grown after several nodes were grafted. -/
theorem Built.graftAll (h : t.Built) (hparent : parent < t.size) (several : List DocumentNode) :
    (t.graftAll parent several).Built := by
  induction several generalizing t with
  | nil =>
      rw [Tree.graftAll]
      exact h
  | cons node rest ih =>
      have hsize : parent < (t.graft parent node).size := by
        rw [size_graft]
        exact Nat.lt_add_right _ hparent
      rw [Tree.graftAll]
      exact ih (h.graft node hparent) hsize

/-- The tree of a document has grown. -/
theorem built_ofDocument (nodes : List DocumentNode) : (ofDocument nodes).Built :=
  Built.empty.graftAll Nat.one_pos nodes

/-- The tree of a document is well linked. -/
theorem wellLinked_ofDocument (nodes : List DocumentNode) : (ofDocument nodes).WellLinked :=
  wellLinked_empty.graftAll Nat.one_pos nodes

/-- **The tree of a document has its nodes in document order.** -/
theorem subtree_root_ofDocument (nodes : List DocumentNode) :
    (ofDocument nodes).subtree NodeId.root = List.range (ofDocument nodes).size := by
  have h := wellLinked_ofDocument nodes
  rw [h.subtree_eq, children_root_ofDocument,
    h.flatMap_subtree_of_placedAll (placedAll_ofDocument nodes), ofDocument, size_graftAll,
    size_empty, Nat.add_comm, List.range_eq_range', List.range'_succ]
  rfl

end Tree

end TreeSelect
