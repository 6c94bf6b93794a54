import TreeSelect.Tree
/-!
# Views

Selectors are matched against any tree of nodes that can be looked at in five ways: its root, a
node's parent, children, tag and attribute values. An element is a node with a tag. Everything else
that matching asks for follows from these five, by scanning; a tree that knows a shorter way may
answer some of the questions itself. `Tree` does: it walks the links between neighbours instead of
scanning the parent's children.

Where one node stands relative to another is read off the ways that lead down to them. The ways run
together for a while; then one of them ends, or they part between two children of one node, whose
order decides. A node below another counts as following it, and so does, in both directions, a node
of another tree.

## Main definitions

* `Source`: the five ways of looking at a tree, and a bound on its height.
* `View`: a source with an answer to every question that has a shorter way in some trees.
* `Source.view`: the view that scans.
* `View.elementsByClass`, `View.elementsByTag`: questions that every view answers by scanning.
* `Position`, `Source.position`: where one node stands relative to another.
* `Tree.source`: the five ways of looking at a tree.
* `Tree.view`: the tree with its own lookups.
* `Tree.Lookup`, `Tree.viewBy`: the choice between the two.
-/

namespace TreeSelect

/-- The five ways of looking at a tree. -/
structure Source (ν : Type) where
  /-- The root, from which a search starts unless it is told otherwise. -/
  root : ν
  /-- The parent of a node. -/
  parent? : ν → Option ν
  /-- The children of a node in document order. -/
  children : ν → List ν
  /-- The tag of an element; other nodes have none. -/
  tag? : ν → Option Text
  /-- The value of an attribute of an element, by the attribute's name. -/
  value? : ν → Text → Option Text
  /-- No way from a node upward or downward has more steps than this. -/
  height : Nat

/-- A tree with an answer to every question that has a shorter way in some trees. -/
structure View (ν : Type) extends Source ν where
  /-- Whether an element carries a class. -/
  hasClass : ν → Text → Bool
  /-- The first element after a node among its siblings. -/
  nextElement? : ν → Option ν
  /-- A node and everything below it in document order. -/
  subtree : ν → List ν
  /-- The first element with an id at or below a node. -/
  elementById? : ν → Text → Option ν
  /-- Whether the first node lies strictly below the second. -/
  isDescendantOf : ν → ν → Bool

namespace Source

variable {ν : Type}

/-- Whether a node is an element. -/
def isElement (s : Source ν) (n : ν) : Bool :=
  (s.tag? n).isSome

/-- Whether a node has an attribute, whatever its value. -/
def hasAttribute (s : Source ν) (n : ν) (name : Text) : Bool :=
  (s.value? n name).isSome

/-- The nodes above a node from its parent up, at most `bound` of them. -/
def ancestorsWithin (s : Source ν) : Nat → ν → List ν
  | 0, _ => []
  | bound + 1, n =>
    match s.parent? n with
    | none => []
    | some parent => parent :: ancestorsWithin s bound parent

/-- The nodes above a node from its parent up. -/
def ancestors (s : Source ν) (n : ν) : List ν :=
  s.ancestorsWithin s.height n

/-- The way down to a node from the topmost node above it, both included. -/
def path (s : Source ν) (n : ν) : List ν :=
  (n :: s.ancestors n).reverse

/-- A node and everything below it in document order, at most `bound` steps down. -/
def subtreeWithin (s : Source ν) : Nat → ν → List ν
  | 0, n => [n]
  | bound + 1, n => n :: (s.children n).flatMap (subtreeWithin s bound)

/-- The first element behind the first occurrence of a node in a list of siblings. -/
def elementAfter? [DecidableEq ν] (s : Source ν) (n : ν) (siblings : List ν) : Option ν :=
  ((siblings.dropWhile fun sibling => sibling != n).drop 1).find? s.isElement

/-- The view of a tree that answers every question by scanning. -/
def view [DecidableEq ν] (s : Source ν) : View ν where
  toSource := s
  hasClass n name := (s.value? n "class".toList).any fun value => value.words.contains name
  nextElement? n := (s.parent? n).bind fun parent => s.elementAfter? n (s.children parent)
  subtree n := s.subtreeWithin s.height n
  elementById? scope id :=
    (s.subtreeWithin s.height scope).find? fun n =>
      s.isElement n && s.value? n "id".toList == some id
  isDescendantOf n ancestor := (s.ancestors n).contains ancestor

end Source

namespace View

variable {ν : Type}

/-- The elements with a class at or below a node. -/
def elementsByClass (v : View ν) (scope : ν) (name : Text) : List ν :=
  (v.subtree scope).filter fun n => v.isElement n && v.hasClass n name

/-- Whether a tag is asked for by a name: `*` asks for every tag, and any other name for the tags
that differ from it at most in the case of ASCII letters. -/
def asksForTag (name tag : Text) : Bool :=
  name == ['*'] || tag.foldCase == name.foldCase

/-- The elements at or below a node whose tag is asked for by a name. -/
def elementsByTag (v : View ν) (scope : ν) (name : Text) : List ν :=
  (v.subtree scope).filter fun n => (v.tag? n).any (asksForTag name)

end View

/-! ### Document order -/

/-- Where one node stands relative to another. -/
inductive Position where
  /-- Before it, and not above it. -/
  | precedes
  /-- After it or below it, or in another tree. -/
  | follows
  /-- Above it. -/
  | contains
  /-- It is the other node. -/
  | same
deriving DecidableEq, Repr

/-- The word for a position. -/
def Position.word : Position → String
  | precedes => "Precedes"
  | follows => "Follows"
  | contains => "Contains"
  | same => "Same"

namespace Source

variable {ν : Type} [DecidableEq ν]

/-- Where one child stands relative to another in a list of siblings. -/
def positionAmong (siblings : List ν) (a b : ν) : Position :=
  match siblings.find? fun sibling => sibling == a || sibling == b with
  | some first => if first = a then .precedes else .follows
  | none => .follows

/-- Where the end of one way down stands relative to the end of another, both ways continuing from
one node. -/
def positionBelow (s : Source ν) (above : ν) : List ν → List ν → Position
  | [], _ => .contains
  | _ :: _, [] => .follows
  | a :: as, b :: bs =>
    if a = b then positionBelow s a as bs else positionAmong (s.children above) a b

/-- Where the end of one way stands relative to the end of another. -/
def positionOfPaths (s : Source ν) : List ν → List ν → Position
  | a :: as, b :: bs => if a = b then s.positionBelow a as bs else .follows
  | _, _ => .follows

/-- Where one node stands relative to another. -/
def position (s : Source ν) (a b : ν) : Position :=
  if a = b then .same else s.positionOfPaths (s.path a) (s.path b)

/-- A node stands where it stands itself. -/
@[simp] theorem position_self (s : Source ν) (a : ν) : s.position a a = .same := by
  simp [position]

end Source

/-! ### Trees as views -/

namespace Tree

/-- The five ways of looking at a tree. -/
def source (t : Tree) : Source NodeId where
  root := NodeId.root
  parent? := t.parent?
  children := t.children
  tag? n := (t.element? n).map (·.tag)
  value? n name := (t.element? n).bind (·.value? name)
  height := t.size

/-- The tree with its own lookups. -/
def view (t : Tree) : View NodeId where
  toSource := t.source
  hasClass n name := (t.element? n).any (·.hasClass name)
  nextElement? := t.nextElement?
  subtree := t.subtree
  elementById? := t.elementById?
  isDescendantOf := t.isDescendantOf

/-- How questions about a tree are answered. -/
inductive Lookup where
  /-- By the tree's own lookups. -/
  | own
  /-- By scanning. -/
  | scanning
deriving DecidableEq, Repr

/-- The tree as it is looked at in a given way. -/
def viewBy (t : Tree) : Lookup → View NodeId
  | .own => t.view
  | .scanning => t.source.view

/-- The elements of a tree are those of its source. -/
@[simp] theorem isElement_source (t : Tree) (n : NodeId) :
    t.source.isElement n = t.isElement n := by
  simp [source, Source.isElement, isElement]

/-- Carrying a class means the same by the tree's own lookup and by scanning the attribute. -/
theorem hasClass_source_view (t : Tree) (n : NodeId) (name : Text) :
    t.source.view.hasClass n name = t.view.hasClass n name := by
  show ((t.element? n).bind fun e => e.value? "class".toList).any _ = (t.element? n).any _
  cases t.element? n with
  | none => rfl
  | some e =>
    simp only [Option.bind_some, Option.any_some, Element.hasClass, Element.classWords]
    cases e.value? "class".toList <;> simp

end Tree

end TreeSelect
