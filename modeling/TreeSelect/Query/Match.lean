import TreeSelect.Selector.Basic
import TreeSelect.View
/-!
# Matching

A simple selector is resolved by the narrowest lookup that it allows: by its id, else by its first
class, else by its tag. What the lookup finds is held against the whole selector.

A chain is evaluated as it is read: the leftmost simple selector finds the anchors, the chain on
its right, evaluated in the same context, finds the candidates, and the combinator between them
decides which candidates, or which anchors, are reported. Two choices are left open: how many
elements on the left of a combinator count as its anchors, and which side of `~` is reported.

## Main definitions

* `AnchorMode`, `SiblingResult`, `Options`: the choices.
* `Simple.accepts`, `Simple.resolve`: one simple selector.
* `Combinator.relates`: the relation that a combinator stands for.
* `Selector.matches`, `SelectorList.matches`: a chain and a list.
-/

namespace TreeSelect

/-! ### Options -/

/-- How many matches on the left of a combinator are its anchors. -/
inductive AnchorMode where
  /-- The first in document order only. -/
  | first
  /-- All of them: a candidate need only be related to one. -/
  | every
deriving DecidableEq, Repr

namespace AnchorMode

/-- The word for a mode. -/
def text : AnchorMode → Text
  | first => "first".toList
  | every => "every".toList

/-- The mode that a word spells. -/
def ofText? (t : Text) : Option AnchorMode :=
  [first, every].find? fun mode => mode.text == t

/-- The anchors among the matches on the left. -/
def select {α : Type} : AnchorMode → List α → List α
  | first, found => found.take 1
  | every, found => found

/-- Anchors keep their order among the matches. -/
theorem select_sublist {α : Type} (mode : AnchorMode) (found : List α) :
    (mode.select found).Sublist found := by
  cases mode
  · exact List.take_sublist ..
  · exact List.Sublist.refl _

/-- A mode is found again from its word. -/
@[simp] theorem ofText?_text (mode : AnchorMode) : ofText? mode.text = some mode := by
  cases mode <;> decide

end AnchorMode

/-- Which side of `~` is reported. -/
inductive SiblingResult where
  /-- The anchor, once, if any later sibling matches. -/
  | anchor
  /-- Each later sibling that matches. -/
  | candidate
deriving DecidableEq, Repr

namespace SiblingResult

/-- The word for a side. -/
def text : SiblingResult → Text
  | anchor => "anchor".toList
  | candidate => "candidate".toList

/-- The side that a word spells. -/
def ofText? (t : Text) : Option SiblingResult :=
  [anchor, candidate].find? fun side => side.text == t

/-- A side is found again from its word. -/
@[simp] theorem ofText?_text (side : SiblingResult) : ofText? side.text = some side := by
  cases side <;> decide

end SiblingResult

/-- The choices that a query leaves open. -/
structure Options where
  /-- How many matches on the left of a combinator count. -/
  anchorMode : AnchorMode := .first
  /-- Which side of `~` is reported. -/
  siblingResult : SiblingResult := .anchor
deriving DecidableEq, Repr

/-! ### Selectors -/

variable {ν : Type}

namespace Simple

/-- Whether a node is an element that satisfies every constraint. -/
def accepts (s : Simple) (v : View ν) (n : ν) : Bool :=
  match v.tag? n with
  | none => false
  | some tag =>
    s.acceptsTag tag &&
      s.id.all (fun id => v.value? n "id".toList == some id) &&
      s.classes.all (v.hasClass n) &&
      s.attributes.all fun clause => clause.test.holds (v.value? n clause.name)

/-- What the narrowest lookup finds at or below a node. Of several elements with one id it finds
the first only. -/
def candidates (s : Simple) (v : View ν) (scope : ν) : List ν :=
  match s.id, s.classes with
  | some id, _ => (v.elementById? scope id).toList
  | none, name :: _ => v.elementsByClass scope name
  | none, [] => v.elementsByTag scope ((s.tag.map TypeSelector.text).getD ['*'])

/-- The elements at or below a node that the narrowest lookup finds and the selector accepts. -/
def resolve (s : Simple) (v : View ν) (scope : ν) : List ν :=
  (s.candidates v scope).filter (s.accepts v)

/-- Whether a node is an element whose tag the selector accepts. -/
def acceptsTagOf (s : Simple) (v : View ν) (n : ν) : Bool :=
  (v.tag? n).any s.acceptsTag

/-- Only elements are accepted. -/
theorem isElement_of_accepts {s : Simple} {v : View ν} {n : ν} (h : s.accepts v n = true) :
    v.isElement n = true := by
  unfold accepts at h
  split at h
  · cases h
  · rename_i tag htag
    simp [Source.isElement, htag]

end Simple

namespace Combinator

/-- Whether a combinator reports its anchors and not its candidates. -/
def reportsAnchor (c : Combinator) (options : Options) : Bool :=
  match c with
  | reverseChild => true
  | subsequentSibling => options.siblingResult == .anchor
  | _ => false

/-- Whether an anchor and a candidate are related as a combinator says. For `>`, `<` and `~` the
candidate must also have a tag that the simple selector on the right accepts. An anchor counts as
its own child. -/
def relates [DecidableEq ν] (c : Combinator) (v : View ν) (right : Simple)
    (anchor candidate : ν) : Bool :=
  match c with
  | descendant => v.isDescendantOf candidate anchor
  | child | reverseChild =>
    (v.parent? candidate == some anchor || candidate == anchor) && right.acceptsTagOf v candidate
  | nextSibling => v.nextElement? anchor == some candidate
  | subsequentSibling =>
    (v.parent? candidate).isSome && v.parent? candidate == v.parent? anchor &&
      right.acceptsTagOf v candidate && v.position anchor candidate == .precedes

end Combinator

variable [DecidableEq ν]

/-- The nodes that a chain finds at or below a node. -/
def Selector.matchChain (v : View ν) (options : Options) (scope : ν) :
    Simple → List (Combinator × Simple) → List ν
  | head, [] => head.resolve v scope
  | head, (c, right) :: rest =>
    let anchors := options.anchorMode.select (head.resolve v scope)
    let candidates := matchChain v options scope right rest
    if c.reportsAnchor options then
      anchors.filter fun anchor => candidates.any (c.relates v right anchor)
    else
      candidates.filter fun candidate =>
        anchors.any fun anchor => c.relates v right anchor candidate

/-- The nodes that a selector finds at or below a node. -/
def Selector.matches (s : Selector) (v : View ν) (options : Options) (scope : ν) : List ν :=
  Selector.matchChain v options scope s.head s.rest

/-- The nodes that the selectors of a list find at or below a node, one selector after the other. A
node that two of them find stands in the answer twice. -/
def SelectorList.matches (list : SelectorList) (v : View ν) (options : Options) (scope : ν) :
    List ν :=
  list.flatMap fun s => s.matches v options scope

/-- A list of two parts finds what the first finds and then what the second finds. -/
theorem SelectorList.matches_append (first second : SelectorList) (v : View ν) (options : Options)
    (scope : ν) :
    SelectorList.matches (first ++ second) v options scope =
      SelectorList.matches first v options scope ++ SelectorList.matches second v options scope :=
  List.flatMap_append

end TreeSelect
