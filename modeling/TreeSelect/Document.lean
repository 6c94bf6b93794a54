import TreeSelect.Json.Reader
import TreeSelect.Tree
/-!
# Documents

A document is a list of nodes with their children nested inside. It says the same as the part of a
tree that hangs below the root, without places and links.

As JSON an element is an object with a tag, optional attributes and optional children; a text and a
comment are objects with one string. Members of other names are ignored. An object is taken for an
element if it can be, else for a text, else for a comment, and a name that matters to the case at
hand may stand in it only once.

A document is written as an array of nodes. A single node may stand for a document too. A text is
read as one JSON value before anything else is looked at; then its shape is checked, and only then
whether something follows it.

## Main definitions

* `DocumentNode`: a node with everything below it.
* `Tree.graft`, `Tree.ofDocument`: from a document to a tree; `Tree.graft?` refuses parents outside
  the tree and tells the place of what it adds.
* `Tree.exportNode?`, `Tree.toDocument`: from a tree to a document.
* `Attributes.toJson`: attributes as JSON.
* `DocumentNode.toJson`, `DocumentNode.ofJson?`: one node.
* `Document.write`, `Document.read`: a document.
* `DocumentError`: why a text is no document.

## Main statements

* `Tree.graft?_of_lt`: a node is grafted at the old size.
* `Tree.size_graft`: grafting adds one place for each node.
-/

namespace TreeSelect

/-! ### Documents and trees -/

/-- A node of a document with everything below it. -/
inductive DocumentNode where
  /-- An element. -/
  | element (tag : Text) (attributes : Attributes) (children : List DocumentNode)
  /-- A piece of text. -/
  | text (text : Text)
  /-- A comment. -/
  | comment (text : Text)
deriving BEq, Repr, Inhabited

mutual

/-- The number of nodes at and below a node. -/
def DocumentNode.size : DocumentNode → Nat
  | .element _ _ children => DocumentNode.sizeAll children + 1
  | .text _ => 1
  | .comment _ => 1

/-- The number of nodes at and below several nodes. -/
def DocumentNode.sizeAll : List DocumentNode → Nat
  | [] => 0
  | node :: rest => node.size + DocumentNode.sizeAll rest

end

namespace Tree

mutual

/-- Adds a node and everything below it as the last child of another. Its place is the old
size. -/
def graft (t : Tree) (parent : NodeId) : DocumentNode → Tree
  | .element tag attributes children =>
    graftAll (t.append parent (.element ⟨tag, attributes⟩)) t.size children
  | .text text => t.append parent (.text text)
  | .comment text => t.append parent (.comment text)

/-- Adds several nodes, one after the other, as the last children of another. -/
def graftAll (t : Tree) (parent : NodeId) : List DocumentNode → Tree
  | [] => t
  | node :: rest => graftAll (graft t parent node) parent rest

end

/-- Adds a node and everything below it as the last child of another, and tells its place. -/
def graftWithPlace (t : Tree) (parent : NodeId) : DocumentNode → NodeId × Tree
  | .element tag attributes children =>
    let (n, grown) := t.appendWithPlace parent (.element ⟨tag, attributes⟩)
    (n, grown.graftAll n children)
  | .text text => t.appendWithPlace parent (.text text)
  | .comment text => t.appendWithPlace parent (.comment text)

/-- Adds a node and everything below it if its parent is in the tree or is the node itself, and
tells its place. -/
def graft? (t : Tree) (parent : NodeId) (node : DocumentNode) : Option (NodeId × Tree) :=
  if parent ≤ t.size then some (t.graftWithPlace parent node) else none

/-- The tree of a document. -/
def ofDocument (nodes : List DocumentNode) : Tree :=
  empty.graftAll NodeId.root nodes

/-- A node and everything below it, at most `bound` levels deep. The document itself is no node of
a document. -/
def exportWithin? (t : Tree) : Nat → NodeId → Option DocumentNode
  | 0, _ => none
  | bound + 1, n =>
    match t.node? n with
    | none => none
    | some node =>
      match node.kind with
      | .document => none
      | .element e =>
        some (.element e.tag e.attributes (node.children.filterMap (exportWithin? t bound)))
      | .text text => some (.text text)
      | .comment text => some (.comment text)

/-- A node and everything below it as part of a document. -/
def exportNode? (t : Tree) (n : NodeId) : Option DocumentNode :=
  t.exportWithin? t.size n

/-- The document of a tree. -/
def toDocument (t : Tree) : List DocumentNode :=
  (t.children NodeId.root).filterMap t.exportNode?

/-- What is grafted has the old size for its place. -/
theorem graftWithPlace_eq (t : Tree) (parent : NodeId) (node : DocumentNode) :
    t.graftWithPlace parent node = (t.size, t.graft parent node) := by
  cases node with
  | element tag attributes children =>
    rw [graft]
    rfl
  | text text =>
    rw [graft]
    rfl
  | comment text =>
    rw [graft]
    rfl

/-- Below each node of a tree a node is grafted, at the old size. -/
theorem graft?_of_lt {t : Tree} {parent : NodeId} (h : parent < t.size) (node : DocumentNode) :
    t.graft? parent node = some (t.size, t.graft parent node) := by
  rw [graft?, if_pos (Nat.le_of_lt h), graftWithPlace_eq]

mutual

/-- Grafting adds one place for each node. -/
theorem size_graft (t : Tree) (parent : NodeId) :
    ∀ node : DocumentNode, (t.graft parent node).size = t.size + node.size
  | .element tag attributes children => by
    rw [graft, size_graftAll, size_append, DocumentNode.size]
    omega
  | .text text => by rw [graft, size_append, DocumentNode.size]
  | .comment text => by rw [graft, size_append, DocumentNode.size]

/-- Grafting several nodes adds one place for each node. -/
theorem size_graftAll (t : Tree) (parent : NodeId) :
    ∀ nodes : List DocumentNode,
      (t.graftAll parent nodes).size = t.size + DocumentNode.sizeAll nodes
  | [] => by rw [graftAll, DocumentNode.sizeAll, Nat.add_zero]
  | node :: rest => by
    rw [graftAll, size_graftAll, size_graft, DocumentNode.sizeAll]
    omega

end

end Tree

/-! ### Documents as JSON -/

/-- Attributes as JSON: an object of strings, in the order of the names. -/
def Attributes.toJson (attributes : Attributes) : Json :=
  .object (attributes.entries.map fun (name, value) => (name, .string value))

namespace DocumentNode

mutual

/-- A node as JSON; empty attributes and children are left out. -/
def toJson : DocumentNode → Json
  | .element tag attributes children =>
    .object <|
      ("tag".toList, .string tag) ::
        (if attributes.isEmpty then [] else [("attrs".toList, attributes.toJson)]) ++
        match children with
        | [] => []
        | first :: rest => [("children".toList, .array (toJson first :: toJsonAll rest))]
  | .text content => .object [("text".toList, .string content)]
  | .comment content => .object [("comment".toList, .string content)]

/-- Several nodes as JSON. -/
def toJsonAll : List DocumentNode → List Json
  | [] => []
  | node :: rest => toJson node :: toJsonAll rest

end

/-- An attribute from a member of an object. -/
def attributeOfMember? (member : Text × Json) : Option (Text × Text) :=
  member.2.string?.map fun value => (member.1, value)

/-- Attributes from JSON: an object of strings. -/
def attributesOfJson? : Json → Option Attributes
  | .object members => (members.mapM attributeOfMember?).map Attributes.ofList
  | _ => none

/-- The members of an object that matter to an element. -/
structure Members where
  /-- The tag. -/
  tag : Option Text := none
  /-- The attributes. -/
  attributes : Option Attributes := none
  /-- The children. -/
  children : Option (List DocumentNode) := none

/-- The element that members describe; it needs a tag. -/
def Members.element? (members : Members) : Option DocumentNode :=
  members.tag.map fun tag =>
    .element tag (members.attributes.getD .empty) (members.children.getD [])

/-- The string of the one member of a given name. -/
def soleString? (name : Text) (members : List (Text × Json)) : Option Text :=
  match members.filter fun member => member.1 == name with
  | [(_, .string value)] => some value
  | _ => none

mutual

/-- A node from JSON. -/
def ofJson? : Json → Option DocumentNode
  | .object members =>
    ((membersOfJson? members).bind Members.element?)
      <|> (soleString? "text".toList members).map DocumentNode.text
      <|> (soleString? "comment".toList members).map DocumentNode.comment
  | _ => none

/-- The members of an object that matter to an element, if each has its shape and stands once. -/
def membersOfJson? : List (Text × Json) → Option Members
  | [] => some {}
  | (name, value) :: rest =>
    match membersOfJson? rest with
    | none => none
    | some members =>
      if name = "tag".toList then
        match value, members.tag with
        | .string tag, none => some { members with tag }
        | _, _ => none
      else if name = "attrs".toList then
        match attributesOfJson? value, members.attributes with
        | some attributes, none => some { members with attributes }
        | _, _ => none
      else if name = "children".toList then
        match childrenOfJson? value, members.children with
        | some children, none => some { members with children }
        | _, _ => none
      else some members

/-- Children from JSON: an array of nodes. -/
def childrenOfJson? : Json → Option (List DocumentNode)
  | .array items => allOfJson? items
  | _ => none

/-- Several nodes from JSON. -/
def allOfJson? : List Json → Option (List DocumentNode)
  | [] => some []
  | item :: rest =>
    match ofJson? item, allOfJson? rest with
    | some node, some nodes => some (node :: nodes)
    | _, _ => none

end

end DocumentNode

/-- Why a text is no document. -/
inductive DocumentError where
  /-- The text is not JSON. -/
  | json (fault : Json.Fault)
  /-- The text is JSON, but no node and no array of nodes. -/
  | shape
  /-- The document has no node. -/
  | empty
deriving DecidableEq, Repr

/-- What is wrong with a text that is no document, without what it is wrong for. -/
def DocumentError.detail : DocumentError → Text
  | json .endOfText => "the text ends inside a value".toList
  | json .malformed => "the text is not JSON".toList
  | shape => "data did not match any variant of untagged enum DocumentRoot".toList
  | empty => "document contains no nodes".toList

/-- Why a text is no document, in words. -/
def DocumentError.message : DocumentError → Text
  | empty => DocumentError.empty.detail
  | e => "malformed document: ".toList ++ e.detail

namespace Document

/-- How deep arrays and objects of a document may be nested. -/
def depth : Nat := 127

/-- The nodes that a JSON value describes: an array of nodes, or one node. -/
def ofJson? : Json → Option (List DocumentNode)
  | .array items => DocumentNode.allOfJson? items
  | value => (DocumentNode.ofJson? value).map fun node => [node]

/-- Reads a document, which has at least one node. -/
def read (text : Text) : Except DocumentError (List DocumentNode) :=
  match Json.readValue depth text with
  | .error fault => .error (.json fault)
  | .ok (value, behind) =>
    match ofJson? value with
    | none => .error .shape
    | some nodes =>
      if !(Json.skipSpace behind).isEmpty then .error (.json .malformed)
      else if nodes.isEmpty then .error .empty
      else .ok nodes

/-- A document as JSON. -/
def toJson (nodes : List DocumentNode) : Json :=
  .array (DocumentNode.toJsonAll nodes)

/-- Writes a document on one line. -/
def write (nodes : List DocumentNode) : Text :=
  (toJson nodes).compact

end Document

/-- The tree of a document that a text holds. -/
def Tree.ofText (text : Text) : Except DocumentError Tree :=
  (Document.read text).map Tree.ofDocument

end TreeSelect
