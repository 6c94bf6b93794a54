import TreeSelect.Distinct
import TreeSelect.Text
/-!
# Trees

A tree keeps its nodes in one array. A node is known by its place in the array, and it stores the
places of its parent, its children and its two neighbours. Place 0 holds the document, which is
the root.

An element has a tag and attributes: at most one value for each name, listed in the order of the
names, so that equal attributes are equal as values and every printed form is stable.

Nodes are made detached and attached later, always as a last child. A node that is attached twice
stands in two lists of children, and its links speak of the second place only.

A tree is walked upward along parents, downward in document order, and sideways along the links
between neighbours. In a tree whose links have no cycle no walk meets a node twice, so the number of
nodes bounds every walk; the bound is what the recursion counts down.

An outline shows what the walk downward meets with one line for each node, indented by two spaces
for each level. An element is shown by its start tag, with its attributes in the order of their
names. Text is shown on one line, a line break in it as a backslash and an `n`. Everything else is
shown as it is.

## Main definitions

* `Attributes`: the entries, with a proof that their names strictly increase.
* `Attributes.insert`, `Attributes.ofList`, `Attributes.value?`.
* `NodeId`, `Node`, `Tree`: the array and its nodes.
* `Tree.alloc`, `Tree.attach`, `Tree.append`: growing a tree; `Tree.attach?` and `Tree.append?`
  refuse places outside it, `Tree.allocWithPlace` and `Tree.appendWithPlace` tell the new place.
* `Tree.parent?`, `Tree.children`, `Tree.element?` and others: reading a node.
* `Tree.ancestors`, `Tree.isDescendantOf`: upward.
* `Tree.descendants`, `Tree.subtree`: downward, a node before its children.
* `Tree.nextElement?`, `Tree.previousElement?`: sideways to the nearest element.
* `Tree.elementById?`, `Tree.documentElement?`: the first element of a kind.
* `Element.startTag`, `Node.Kind.label`: an element as it is opened, and a node on a line.
* `Tree.outline`: a subtree, line by line.

## Main statements

* `Attributes.value?_insert`: inserting sets one value and leaves the others.
* `Tree.node?_alloc`, `Tree.node?_attach`: what the two ways of growing do to each node.
-/

namespace TreeSelect

/-! ### Attributes -/

/-- The values of an element's attributes by name. -/
structure Attributes where
  /-- Name and value of each attribute. -/
  entries : List (Text × Text) := []
  /-- The names strictly increase by code points. -/
  sorted : entries.Pairwise (fun a b => a.1 < b.1) := by exact List.Pairwise.nil
deriving DecidableEq, Repr

namespace Attributes

/-- Of two different texts one comes before the other. -/
theorem lt_of_not_lt_of_ne {s t : Text} (h : ¬ s < t) (hne : s ≠ t) : t < s :=
  Classical.not_not.1 fun h' => hne (List.le_antisymm (List.not_lt.1 h') (List.not_lt.1 h))

/-- Sets the value of a name in entries whose names increase. -/
def insertEntry (name value : Text) : List (Text × Text) → List (Text × Text)
  | [] => [(name, value)]
  | entry :: rest =>
    if name < entry.1 then (name, value) :: entry :: rest
    else if name = entry.1 then (name, value) :: rest
    else entry :: insertEntry name value rest

/-- The names after an insertion are the old ones and the new one. -/
theorem fst_of_mem_insertEntry {name value : Text} {entries : List (Text × Text)}
    {entry : Text × Text} (h : entry ∈ insertEntry name value entries) :
    entry.1 = name ∨ entry ∈ entries := by
  induction entries with
  | nil =>
    simp only [insertEntry, List.mem_singleton] at h
    exact .inl (congrArg Prod.fst h)
  | cons first rest ih =>
    simp only [insertEntry] at h
    split at h
    · rcases List.mem_cons.1 h with rfl | h
      · exact .inl rfl
      · exact .inr h
    · split at h
      · rcases List.mem_cons.1 h with rfl | h
        · exact .inl rfl
        · exact .inr (List.mem_cons_of_mem _ h)
      · rcases List.mem_cons.1 h with rfl | h
        · exact .inr (List.mem_cons_self ..)
        · exact (ih h).imp id (List.mem_cons_of_mem _)

/-- An insertion keeps the names increasing. -/
theorem sorted_insertEntry {name value : Text} {entries : List (Text × Text)}
    (h : entries.Pairwise (fun a b => a.1 < b.1)) :
    (insertEntry name value entries).Pairwise (fun a b => a.1 < b.1) := by
  induction entries with
  | nil => simp [insertEntry]
  | cons first rest ih =>
    obtain ⟨hfirst, hrest⟩ := List.pairwise_cons.1 h
    simp only [insertEntry]
    split
    · rename_i hlt
      refine List.pairwise_cons.2 ⟨fun entry hentry => ?_, h⟩
      rcases List.mem_cons.1 hentry with rfl | hentry
      · exact hlt
      · exact List.lt_trans hlt (hfirst entry hentry)
    · split
      · rename_i heq
        exact List.pairwise_cons.2 ⟨fun entry hentry => heq ▸ hfirst entry hentry, hrest⟩
      · rename_i hnot hne
        refine List.pairwise_cons.2 ⟨fun entry hentry => ?_, ih hrest⟩
        rcases fst_of_mem_insertEntry hentry with hname | hentry
        · exact hname ▸ lt_of_not_lt_of_ne hnot hne
        · exact hfirst entry hentry

/-- Sets the value of a name. -/
def insert (attributes : Attributes) (name value : Text) : Attributes where
  entries := insertEntry name value attributes.entries
  sorted := sorted_insertEntry attributes.sorted

/-- No attributes. -/
def empty : Attributes := {}

/-- The attributes with given names and values; of several values for one name the last stays. -/
def ofList (pairs : List (Text × Text)) : Attributes :=
  pairs.foldl (fun attributes pair => attributes.insert pair.1 pair.2) empty

/-- The value of a name. -/
def value? (attributes : Attributes) (name : Text) : Option Text :=
  (attributes.entries.find? fun entry => entry.1 == name).map Prod.snd

/-- Whether there is no attribute. -/
def isEmpty (attributes : Attributes) : Bool :=
  attributes.entries.isEmpty

/-- Inserting sets one value and leaves the others. -/
theorem value?_insert (attributes : Attributes) (name value other : Text) :
    (attributes.insert name value).value? other =
      if name = other then some value else attributes.value? other := by
  obtain ⟨entries, hsorted⟩ := attributes
  simp only [value?, insert]
  induction entries with
  | nil => by_cases h : name = other <;> simp [insertEntry, h]
  | cons first rest ih =>
    obtain ⟨hfirst, hrest⟩ := List.pairwise_cons.1 hsorted
    simp only [insertEntry]
    split
    · by_cases h : name = other <;> simp [h]
    · split
      · rename_i heq
        by_cases h : name = other
        · simp [h]
        · have h' : first.1 ≠ other := fun h' => h (heq.trans h')
          simp [h, h']
      · rename_i hne
        by_cases h : first.1 = other
        · have h' : name ≠ other := fun h' => hne (h'.trans h.symm)
          simp [h, h']
        · simpa [List.find?_cons, h] using ih hrest

end Attributes

/-! ### Elements and nodes -/

/-- The place of a node in its tree. -/
abbrev NodeId := Nat

/-- The document's place. -/
def NodeId.root : NodeId := 0

/-- An element: its tag and its attributes. -/
structure Element where
  /-- The tag, as it was written. -/
  tag : Text
  /-- The attributes. -/
  attributes : Attributes := .empty
deriving DecidableEq, Repr

namespace Element

/-- The value of an attribute. -/
def value? (e : Element) (name : Text) : Option Text :=
  e.attributes.value? name

/-- The id. -/
def id? (e : Element) : Option Text :=
  e.value? "id".toList

/-- The words of the attribute that lists classes. -/
def classWords (e : Element) : List Text :=
  ((e.value? "class".toList).map Text.words).getD []

/-- Whether an element carries a class. -/
def hasClass (e : Element) (name : Text) : Bool :=
  e.classWords.contains name

/-- The classes, each once. -/
def classes (e : Element) : List Text :=
  distinct e.classWords

end Element

/-- What a node is. -/
inductive Node.Kind where
  /-- The document, which no selector matches. -/
  | document
  /-- An element. -/
  | element (element : Element)
  /-- A piece of text. -/
  | text (text : Text)
  /-- A comment. -/
  | comment (text : Text)
deriving DecidableEq, Repr

/-- A node with its links. -/
structure Node where
  /-- What the node is. -/
  kind : Node.Kind
  /-- The node that it was last attached to. -/
  parent : Option NodeId := none
  /-- Its children in document order. -/
  children : List NodeId := []
  /-- The child attached right before it. -/
  previous : Option NodeId := none
  /-- The child attached right after it. -/
  next : Option NodeId := none
deriving DecidableEq, Repr

/-- A tree, with the nodes that are not attached to it yet. -/
structure Tree where
  /-- The nodes by place. -/
  nodes : Array Node
deriving DecidableEq, Repr

namespace Tree

/-- The tree of the document alone. -/
def empty : Tree := ⟨#[{ kind := .document }]⟩

instance : Inhabited Tree := ⟨empty⟩

/-- The number of nodes, attached or not. -/
def size (t : Tree) : Nat := t.nodes.size

/-- The node at a place. -/
def node? (t : Tree) (n : NodeId) : Option Node := t.nodes[n]?

/-! ### Reading a node -/

/-- The parent of a node. -/
def parent? (t : Tree) (n : NodeId) : Option NodeId := (t.node? n).bind (·.parent)

/-- The children of a node. -/
def children (t : Tree) (n : NodeId) : List NodeId := ((t.node? n).map (·.children)).getD []

/-- The child right before a node. -/
def previous? (t : Tree) (n : NodeId) : Option NodeId := (t.node? n).bind (·.previous)

/-- The child right after a node. -/
def next? (t : Tree) (n : NodeId) : Option NodeId := (t.node? n).bind (·.next)

/-- The element that a node is. -/
def element? (t : Tree) (n : NodeId) : Option Element :=
  match t.node? n with
  | some { kind := .element e, .. } => some e
  | _ => none

/-- The text that a node is. -/
def text? (t : Tree) (n : NodeId) : Option Text :=
  match t.node? n with
  | some { kind := .text text, .. } => some text
  | _ => none

/-- Whether a node is an element. -/
def isElement (t : Tree) (n : NodeId) : Bool := (t.element? n).isSome

/-! ### Growing -/

/-- Adds a detached node, whose place is the old size. -/
def alloc (t : Tree) (kind : Node.Kind) : Tree := ⟨t.nodes.push { kind }⟩

/-- Changes the node at a place, if there is one. -/
def modify (t : Tree) (n : NodeId) (f : Node → Node) : Tree := ⟨t.nodes.modify n f⟩

/-- Makes one node the last child of another, and the neighbour of the child before it. -/
def attach (t : Tree) (parent child : NodeId) : Tree :=
  let linked := (t.modify parent fun node => { node with children := node.children ++ [child] })
    |>.modify child fun node => { node with parent := some parent }
  match (t.children parent).getLast? with
  | none => linked
  | some last =>
    (linked.modify last fun node => { node with next := some child })
      |>.modify child fun node => { node with previous := some last }

/-- Adds a node as the last child of another. -/
def append (t : Tree) (parent : NodeId) (kind : Node.Kind) : Tree :=
  (t.alloc kind).attach parent t.size

/-- Adds a detached node, and tells its place. -/
def allocWithPlace (t : Tree) (kind : Node.Kind) : NodeId × Tree :=
  (t.size, t.alloc kind)

/-- Adds a node as the last child of another, and tells its place. -/
def appendWithPlace (t : Tree) (parent : NodeId) (kind : Node.Kind) : NodeId × Tree :=
  let (n, grown) := t.allocWithPlace kind
  (n, grown.attach parent n)

/-- Attaches a node if it and its parent are in the tree. -/
def attach? (t : Tree) (parent child : NodeId) : Option Tree :=
  if parent < t.size ∧ child < t.size then some (t.attach parent child) else none

/-- Appends a node if its parent is in the tree. The node has its place before it is attached, so
the old size counts as a place too. -/
def append? (t : Tree) (parent : NodeId) (kind : Node.Kind) : Option Tree :=
  (t.alloc kind).attach? parent t.size

/-! ### What growing does to each node -/

/-- The tree of the document has one node. -/
@[simp] theorem size_empty : empty.size = 1 := rfl

/-- Adding a node makes a tree larger by one. -/
@[simp] theorem size_alloc (t : Tree) (kind : Node.Kind) : (t.alloc kind).size = t.size + 1 := by
  simp [alloc, size]

/-- Changing a node keeps the size. -/
@[simp] theorem size_modify (t : Tree) (n : NodeId) (f : Node → Node) :
    (t.modify n f).size = t.size := by
  simp [modify, size]

/-- Attaching keeps the size. -/
@[simp] theorem size_attach (t : Tree) (parent child : NodeId) :
    (t.attach parent child).size = t.size := by
  simp only [attach]
  split <;> simp

/-- Appending makes a tree larger by one. -/
@[simp] theorem size_append (t : Tree) (parent : NodeId) (kind : Node.Kind) :
    (t.append parent kind).size = t.size + 1 := by
  simp [append]

/-- There is a node at each place below the size. -/
theorem node?_isSome_iff {t : Tree} {n : NodeId} : (t.node? n).isSome ↔ n < t.size := by
  simp [node?, size]

/-- Adding a node puts it at the old size and leaves the others. -/
theorem node?_alloc (t : Tree) (kind : Node.Kind) (n : NodeId) :
    (t.alloc kind).node? n = if n = t.size then some { kind } else t.node? n := by
  show (t.nodes.push { kind })[n]? = _
  rw [Array.getElem?_push]
  rfl

/-- Changing a node leaves the others. -/
theorem node?_modify (t : Tree) (m : NodeId) (f : Node → Node) (n : NodeId) :
    (t.modify m f).node? n = if n = m then (t.node? n).map f else t.node? n := by
  simp only [modify, node?, Array.getElem?_modify, eq_comm]

/-- Attaching changes the links of at most three nodes: the parent gets a child, the child a
parent and a neighbour before it, and the former last child a neighbour after it. -/
theorem node?_attach (t : Tree) (parent child n : NodeId) :
    (t.attach parent child).node? n =
      (t.node? n).map fun node =>
        { node with
          children := if n = parent then node.children ++ [child] else node.children
          parent := if n = child then some parent else node.parent
          next := if (t.children parent).getLast? = some n then some child else node.next
          previous :=
            if n = child then ((t.children parent).getLast?).or node.previous
            else node.previous } := by
  cases hlast : (t.children parent).getLast? with
  | none =>
    simp only [attach, hlast, node?_modify]
    cases t.node? n with
    | none => simp
    | some node =>
      by_cases h₁ : parent = n <;> by_cases h₂ : child = n <;> simp [h₁, h₂, eq_comm (a := n)]
  | some last =>
    simp only [attach, hlast, node?_modify, Option.some.injEq]
    cases t.node? n with
    | none => simp
    | some node =>
      by_cases h₁ : parent = n <;> by_cases h₂ : child = n <;> by_cases h₃ : last = n <;>
        simp [h₁, h₂, h₃, eq_comm (a := n)]

/-- Attaching changes no node's kind. -/
theorem kind_node?_attach (t : Tree) (parent child n : NodeId) :
    ((t.attach parent child).node? n).map (·.kind) = (t.node? n).map (·.kind) := by
  rw [node?_attach]
  cases t.node? n <;> rfl

/-! ### Walks -/

/-- The ancestors of a node from its parent up, at most `bound` of them. -/
def ancestorsWithin (t : Tree) : Nat → NodeId → List NodeId
  | 0, _ => []
  | bound + 1, n =>
    match t.parent? n with
    | none => []
    | some parent => parent :: ancestorsWithin t bound parent

/-- The ancestors of a node from its parent up. -/
def ancestors (t : Tree) (n : NodeId) : List NodeId :=
  t.ancestorsWithin t.size n

/-- Whether a node lies strictly below another. -/
def isDescendantOf (t : Tree) (n ancestor : NodeId) : Bool :=
  (t.ancestors n).contains ancestor

/-- A node and everything below it in document order, at most `bound` levels deep. -/
def subtreeWithin (t : Tree) : Nat → NodeId → List NodeId
  | 0, _ => []
  | bound + 1, n => n :: (t.children n).flatMap (subtreeWithin t bound)

/-- Everything below a node in document order. -/
def descendants (t : Tree) (n : NodeId) : List NodeId :=
  (t.children n).flatMap (t.subtreeWithin t.size)

/-- A node and everything below it in document order. -/
def subtree (t : Tree) (n : NodeId) : List NodeId :=
  n :: t.descendants n

/-- The first element that is met along a link, after at most `bound` steps. -/
def elementAlong? (t : Tree) (link : NodeId → Option NodeId) : Nat → NodeId → Option NodeId
  | 0, _ => none
  | bound + 1, n =>
    match link n with
    | none => none
    | some neighbour =>
      if t.isElement neighbour then some neighbour else elementAlong? t link bound neighbour

/-- The nearest element after a node, along the links between neighbours. -/
def nextElement? (t : Tree) (n : NodeId) : Option NodeId :=
  t.elementAlong? t.next? t.size n

/-- The nearest element before a node, along the links between neighbours. -/
def previousElement? (t : Tree) (n : NodeId) : Option NodeId :=
  t.elementAlong? t.previous? t.size n

/-- The first element with an id at or below a node, in document order. -/
def elementById? (t : Tree) (scope : NodeId) (id : Text) : Option NodeId :=
  (t.subtree scope).find? fun n => (t.element? n).bind Element.id? == some id

/-- The first element right below the document. -/
def documentElement? (t : Tree) : Option NodeId :=
  (t.children NodeId.root).find? t.isElement

end Tree

/-! ### Outlines -/

/-- An attribute within a start tag; an empty value is left out. -/
def Attributes.labelEntry : Text × Text → Text
  | (name, []) => name
  | (name, value) => name ++ "=\"".toList ++ value ++ ['"']

/-- An element as it is opened. -/
def Element.startTag (e : Element) : Text :=
  '<' :: e.tag ++ e.attributes.entries.flatMap (fun entry => ' ' :: Attributes.labelEntry entry) ++
    ['>']

/-- A character of a text as an outline shows it. -/
def Node.Kind.labelChar (c : Char) : Text :=
  if c = '\n' then ['\\', 'n'] else [c]

/-- A node as an outline shows it. -/
def Node.Kind.label : Node.Kind → Text
  | document => "#document".toList
  | element e => e.startTag
  | text t => '"' :: t.flatMap labelChar ++ ['"']
  | comment t => "<!-- ".toList ++ t ++ " -->".toList

namespace Tree

/-- The lines of a subtree whose first node stands at a level, at most `bound` levels deep. -/
def outlineLines (t : Tree) : Nat → Nat → NodeId → List Text
  | 0, _, _ => []
  | bound + 1, level, n =>
    match t.node? n with
    | none => []
    | some node =>
      (List.replicate (2 * level) ' ' ++ node.kind.label) ::
        node.children.flatMap (outlineLines t bound (level + 1))

/-- The outline of a subtree. -/
def outline (t : Tree) (n : NodeId) : Text :=
  (t.outlineLines t.size 0 n).flatMap fun line => line ++ ['\n']

end Tree

end TreeSelect
