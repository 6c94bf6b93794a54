import Mathlib.Data.List.Basic
import TreeSelect.Document
import TreeSelect.Query.Match
/-!
# The case of letters

Tags and type names are compared without the case of ASCII letters, and nothing else of a tree or of
a selector is. A query compares them in three places: when it looks elements up by a tag, when it
holds what it found against the whole simple selector, and once more in the relations of `>`, `<`
and `~`. In none of them does the case of a letter tell, so a query may as well be asked with all of
it taken out: of the tags of the tree, and of the type names of the list.

Every fact has the same shape: the folded selector asks the folded tree what the selector asks the
tree. The links between the nodes are the same in both, whatever they are.

## Main definitions

* `SelectorList.foldCase`, `Tree.foldCase`: a list and a tree without the case of their tags.
* `View.foldCase`: any view of a tree, its tags folded.

## Main statements

* `Simple.candidates_foldCase`, `Simple.accepts_foldCase`, `Combinator.relates_foldCase`: the three
  places.
* `Simple.resolve_named`: a type name alone finds the elements with this tag up to the case.
* `Tree.viewBy_foldCase`: a folded tree is looked at through folded views.
* `SelectorList.matches_of_foldCase_eq`: **the case of tags and type names does not tell.**
-/

namespace TreeSelect

/-! ### Texts -/

namespace Text

/-- Folding leaves a character as it is, or the character is a capital and becomes the letter that
stands 32 places further on. -/
theorem toLower_cases (c : Char) :
    c.toLower = c ∨ 65 ≤ c.toNat ∧ c.toNat ≤ 90 ∧ c.toLower.toNat = c.toNat + 32 := by
  by_cases hcapital : 'A'.val ≤ c.val ∧ c.val ≤ 'Z'.val
  · have hletter : c.toLower = _ := dif_pos hcapital
    have hlow : 65 ≤ c.toNat := UInt32.le_iff_toNat_le.mp hcapital.1
    have hhigh : c.toNat ≤ 90 := UInt32.le_iff_toNat_le.mp hcapital.2
    refine .inr ⟨hlow, hhigh, ?_⟩
    rw [hletter]
    show (c.val + ('a'.val - 'A'.val)).toNat = c.toNat + 32
    rw [UInt32.toNat_add]
    exact Nat.mod_eq_of_lt (Nat.lt_of_le_of_lt (Nat.add_le_add_right hhigh 32) (by decide))
  · exact .inl (dif_neg hcapital)

/-- A text that was folded has no case left: a small letter is no capital. -/
@[simp] theorem foldCase_foldCase (t : Text) : t.foldCase.foldCase = t.foldCase := by
  have htwice : ∀ c : Char, c.toLower.toLower = c.toLower := by
    intro c
    rcases toLower_cases c with hsame | ⟨hlow, -, hletter⟩
    · rw [hsame, hsame]
    · rcases toLower_cases c.toLower with hsame | ⟨-, hhigh, -⟩
      · exact hsame
      · omega
  simp [foldCase, htwice]

/-- Only the asterisk folds to the asterisk, which comes before all letters. -/
theorem toLower_eq_asterisk_iff {c : Char} : c.toLower = '*' ↔ c = '*' := by
  constructor
  · intro h
    rcases toLower_cases c with hsame | ⟨hlow, -, hletter⟩
    · rw [← hsame, h]
    · rw [h] at hletter
      have hplace : '*'.toNat < 65 := by decide
      omega
  · rintro rfl
    rfl

/-- Only the name that asks for every tag folds to it. -/
theorem foldCase_eq_asterisk_iff {t : Text} : t.foldCase = ['*'] ↔ t = ['*'] := by
  match t with
  | [] => simp [foldCase]
  | [c] => simp [foldCase, toLower_eq_asterisk_iff]
  | _ :: _ :: _ => simp [foldCase]

end Text

/-! ### Selectors -/

/-- A type selector with the case of its name taken out. -/
def TypeSelector.foldCase : TypeSelector → TypeSelector
  | universal => universal
  | named name => named name.foldCase

/-- A simple selector with the case of its type name taken out. Its id, its classes and its clauses
stay as they are. -/
def Simple.foldCase (s : Simple) : Simple :=
  { s with tag := s.tag.map TypeSelector.foldCase }

/-- A chain with the case of its type names taken out. -/
def Selector.foldCase (s : Selector) : Selector where
  head := s.head.foldCase
  rest := s.rest.map fun step => (step.1, step.2.foldCase)

/-- A list with the case of its type names taken out. -/
def SelectorList.foldCase (list : SelectorList) : SelectorList :=
  list.map Selector.foldCase

/-- Neither the case of the name nor that of the tag tells whether the tag is accepted. -/
@[simp] theorem TypeSelector.accepts_foldCase (type : TypeSelector) (tag : Text) :
    type.foldCase.accepts tag.foldCase = type.accepts tag := by
  cases type <;> simp [foldCase, accepts]

/-- The printed name of a folded type selector is the folded name. -/
theorem TypeSelector.text_foldCase (type : TypeSelector) :
    type.foldCase.text = type.text.foldCase := by
  cases type <;> rfl

/-- Neither the case of the type name nor that of the tag tells whether the tag is accepted. -/
@[simp] theorem Simple.acceptsTag_foldCase (s : Simple) (tag : Text) :
    s.foldCase.acceptsTag tag.foldCase = s.acceptsTag tag := by
  cases htag : s.tag <;> simp [foldCase, acceptsTag, htag]

/-- Neither the case of a name nor that of a tag tells whether the one asks for the other. -/
@[simp] theorem View.asksForTag_foldCase (name tag : Text) :
    asksForTag name.foldCase tag.foldCase = asksForTag name tag := by
  have hasterisk : (name.foldCase == ['*']) = (name == ['*']) :=
    Bool.eq_iff_iff.mpr (by simp [Text.foldCase_eq_asterisk_iff])
  rw [asksForTag, asksForTag, hasterisk, Text.foldCase_foldCase, Text.foldCase_foldCase]

/-! ### Views -/

section View

variable {ν : Type}

/-- A tree that is looked at with the case of its tags taken out. -/
def Source.foldCase (s : Source ν) : Source ν :=
  { s with tag? := fun n => (s.tag? n).map Text.foldCase }

/-- A view with the case of its tags taken out. No other answer has to do with tags. -/
def View.foldCase (v : View ν) : View ν :=
  { v with toSource := v.toSource.foldCase }

/-- The tag of a node, with its case taken out. -/
@[simp] theorem View.tag?_foldCase (v : View ν) (n : ν) :
    v.foldCase.tag? n = (v.tag? n).map Text.foldCase := rfl

namespace Source

/-- The parent of a node has nothing to do with tags. -/
@[simp] theorem parent?_foldCase (s : Source ν) (n : ν) : s.foldCase.parent? n = s.parent? n := rfl

/-- A node is an element whatever the case of its tag. -/
@[simp] theorem isElement_foldCase (s : Source ν) (n : ν) :
    s.foldCase.isElement n = s.isElement n := by
  simp [isElement, foldCase]

/-- What is above a node has nothing to do with tags. -/
@[simp] theorem ancestorsWithin_foldCase (s : Source ν) (bound : Nat) (n : ν) :
    s.foldCase.ancestorsWithin bound n = s.ancestorsWithin bound n := by
  induction bound generalizing n with
  | zero => rfl
  | succ bound ih =>
    rw [ancestorsWithin, ancestorsWithin, parent?_foldCase]
    cases s.parent? n with
    | none => rfl
    | some parent => simp only [ih]

/-- What is below a node has nothing to do with tags. -/
@[simp] theorem subtreeWithin_foldCase (s : Source ν) (bound : Nat) (n : ν) :
    s.foldCase.subtreeWithin bound n = s.subtreeWithin bound n := by
  induction bound generalizing n with
  | zero => rfl
  | succ bound ih =>
    rw [subtreeWithin, subtreeWithin, funext ih]
    rfl

variable [DecidableEq ν]

/-- The order of two nodes below a third has nothing to do with tags. -/
@[simp] theorem positionBelow_foldCase (s : Source ν) (above : ν) (as bs : List ν) :
    s.foldCase.positionBelow above as bs = s.positionBelow above as bs := by
  induction as generalizing above bs with
  | nil => rfl
  | cons a as ih =>
    cases bs with
    | nil => rfl
    | cons b bs =>
      rw [positionBelow, positionBelow, ih]
      rfl

/-- The order of nodes has nothing to do with tags. -/
@[simp] theorem position_foldCase (s : Source ν) (a b : ν) :
    s.foldCase.position a b = s.position a b := by
  have hpath : s.foldCase.path = s.path := by
    funext n
    rw [path, path, ancestors, ancestors, ancestorsWithin_foldCase]
    rfl
  rw [position, position, hpath]
  cases s.path a <;> cases s.path b <;> simp only [positionOfPaths, positionBelow_foldCase]

/-- The view that scans a folded tree is the folded view that scans the tree. -/
theorem view_foldCase (s : Source ν) : s.foldCase.view = s.view.foldCase := by
  have hnext : s.foldCase.elementAfter? = s.elementAfter? := by
    funext n siblings
    rw [elementAfter?, elementAfter?, funext s.isElement_foldCase]
  simp only [view, View.foldCase, ancestors, hnext, ancestorsWithin_foldCase,
    subtreeWithin_foldCase, isElement_foldCase]
  rfl

end Source

/-! ### Queries -/

namespace Simple

/-- The first place: what is looked up, be it by id, by class or by tag, is the same. -/
theorem candidates_foldCase (s : Simple) (v : View ν) (scope : ν) :
    s.foldCase.candidates v.foldCase scope = s.candidates v scope := by
  have hclass : ∀ name, v.foldCase.elementsByClass scope name = v.elementsByClass scope name := by
    intro name
    exact List.filter_congr fun n _ => congrArg (· && v.hasClass n name)
      (v.toSource.isElement_foldCase n)
  have htag : ∀ name,
      v.foldCase.elementsByTag scope name.foldCase = v.elementsByTag scope name := by
    intro name
    refine List.filter_congr fun n _ => ?_
    rw [View.tag?_foldCase, Option.any_map]
    exact congrArg (v.tag? n).any (funext fun tag => View.asksForTag_foldCase name tag)
  have hname : (s.foldCase.tag.map TypeSelector.text).getD ['*'] =
      Text.foldCase ((s.tag.map TypeSelector.text).getD ['*']) := by
    cases htype : s.tag with
    | none => simp [foldCase, htype, Text.foldCase]
    | some type => simp [foldCase, htype, TypeSelector.text_foldCase]
  rw [candidates, candidates, hname]
  simp only [hclass, htag]
  rfl

/-- The second place: the same elements are accepted. -/
theorem accepts_foldCase (s : Simple) (v : View ν) (n : ν) :
    s.foldCase.accepts v.foldCase n = s.accepts v n := by
  rw [accepts, accepts, View.tag?_foldCase]
  cases v.tag? n with
  | none => rfl
  | some tag =>
    simp only [Option.map_some, acceptsTag_foldCase]
    rfl

/-- The same elements are found at or below a node. -/
theorem resolve_foldCase (s : Simple) (v : View ν) (scope : ν) :
    s.foldCase.resolve v.foldCase scope = s.resolve v scope := by
  rw [resolve, resolve, candidates_foldCase, funext (s.accepts_foldCase v)]

/-- A type name alone finds the elements whose tag is the name up to the case of letters. -/
theorem resolve_named (name : Text) (v : View ν) (scope : ν) :
    resolve { tag := some (.named name) } v scope =
      (v.subtree scope).filter fun n =>
        (v.tag? n).any fun tag => tag.foldCase == name.foldCase := by
  rw [resolve, candidates, View.elementsByTag, List.filter_filter]
  refine List.filter_congr fun n _ => ?_
  rw [accepts]
  cases v.tag? n with
  | none => rfl
  | some tag =>
    -- by the name `*` every tag is looked up, and those that are another text are not accepted
    have hsymm : (name.foldCase == tag.foldCase) = (tag.foldCase == name.foldCase) := BEq.comm
    simp only [acceptsTag, TypeSelector.accepts, TypeSelector.text, View.asksForTag, hsymm,
      Option.all_some, Option.all_none, Option.map_some, Option.getD_some, Option.any_some,
      List.all_nil, Bool.and_true]
    cases tag.foldCase == name.foldCase <;> simp

/-- The tags of the same nodes are accepted. -/
theorem acceptsTagOf_foldCase (s : Simple) (v : View ν) (n : ν) :
    s.foldCase.acceptsTagOf v.foldCase n = s.acceptsTagOf v n := by
  rw [acceptsTagOf, acceptsTagOf, View.tag?_foldCase, Option.any_map]
  exact congrArg (v.tag? n).any (funext s.acceptsTag_foldCase)

end Simple

variable [DecidableEq ν]

/-- The third place: the same nodes are related. -/
theorem Combinator.relates_foldCase (c : Combinator) (v : View ν) (right : Simple)
    (anchor candidate : ν) :
    c.relates v.foldCase right.foldCase anchor candidate = c.relates v right anchor candidate := by
  cases c with
  | descendant | nextSibling => rfl
  | child | reverseChild =>
    simp only [relates, Simple.acceptsTagOf_foldCase]
    rfl
  | subsequentSibling =>
    have hposition : v.foldCase.position anchor candidate = v.position anchor candidate :=
      v.toSource.position_foldCase anchor candidate
    simp only [relates, Simple.acceptsTagOf_foldCase, hposition]
    rfl

/-- A chain finds the same. It is read from the left, so the induction is on what stands behind its
head, for every head. -/
theorem Selector.matchChain_foldCase (v : View ν) (options : Options) (scope : ν) (head : Simple)
    (rest : List (Combinator × Simple)) :
    Selector.matchChain v.foldCase options scope head.foldCase
        (rest.map fun step => (step.1, step.2.foldCase)) =
      Selector.matchChain v options scope head rest := by
  induction rest generalizing head with
  | nil => exact head.resolve_foldCase v scope
  | cons step rest ih =>
    obtain ⟨c, right⟩ := step
    simp only [List.map_cons, Selector.matchChain, ih right, head.resolve_foldCase,
      funext₂ (c.relates_foldCase v right)]

/-- A list finds the same. -/
theorem SelectorList.matches_foldCase (list : SelectorList) (v : View ν) (options : Options)
    (scope : ν) :
    list.foldCase.matches v.foldCase options scope = list.matches v options scope := by
  rw [SelectorList.matches, foldCase, List.flatMap_map]
  exact List.flatMap_congr fun s _ => Selector.matchChain_foldCase v options scope s.head s.rest

end View

/-! ### Trees -/

/-- An element with the case of its tag taken out. Its attributes stay as they are. -/
def Element.foldCase (e : Element) : Element :=
  { e with tag := e.tag.foldCase }

/-- What a node is, with the case of its tag taken out if it is an element. -/
def Node.Kind.foldCase : Node.Kind → Node.Kind
  | element e => element e.foldCase
  | kind => kind

/-- A node with the case of its tag taken out if it is an element. Its links stay as they are. -/
def Node.foldCase (node : Node) : Node :=
  { node with kind := node.kind.foldCase }

namespace Tree

/-- A tree with the case of its tags taken out. -/
def foldCase (t : Tree) : Tree where
  nodes := (t.nodes.toList.map Node.foldCase).toArray

/-- Each place holds its node, with the case of the tag taken out. -/
theorem node?_foldCase (t : Tree) (n : NodeId) :
    t.foldCase.node? n = (t.node? n).map Node.foldCase := by
  simp [node?, foldCase]

/-- The elements are the same up to the case of their tags. -/
theorem element?_foldCase (t : Tree) (n : NodeId) :
    t.foldCase.element? n = (t.element? n).map Element.foldCase := by
  rw [element?, element?, node?_foldCase]
  cases t.node? n with
  | none => rfl
  | some node =>
    obtain ⟨kind, parent, children, previous, next⟩ := node
    cases kind <;> rfl

/-- A node has its parent. -/
@[simp] theorem parent?_foldCase (t : Tree) (n : NodeId) : t.foldCase.parent? n = t.parent? n := by
  rw [parent?, parent?, node?_foldCase]
  cases t.node? n <;> rfl

/-- A node has its children. -/
@[simp] theorem children_foldCase (t : Tree) (n : NodeId) :
    t.foldCase.children n = t.children n := by
  rw [children, children, node?_foldCase]
  cases t.node? n <;> rfl

/-- A node has its neighbour. -/
@[simp] theorem next?_foldCase (t : Tree) (n : NodeId) : t.foldCase.next? n = t.next? n := by
  rw [next?, next?, node?_foldCase]
  cases t.node? n <;> rfl

/-- A tree keeps its size. -/
@[simp] theorem size_foldCase (t : Tree) : t.foldCase.size = t.size := by
  simp [size, foldCase]

/-- A node is an element whatever the case of its tag. -/
@[simp] theorem isElement_foldCase (t : Tree) (n : NodeId) :
    t.foldCase.isElement n = t.isElement n := by
  simp [isElement, element?_foldCase]

/-- The way up is the same. -/
@[simp] theorem ancestorsWithin_foldCase (t : Tree) (bound : Nat) (n : NodeId) :
    t.foldCase.ancestorsWithin bound n = t.ancestorsWithin bound n := by
  induction bound generalizing n with
  | zero => rfl
  | succ bound ih => simp only [ancestorsWithin, parent?_foldCase, ih]

/-- The way down is the same. -/
@[simp] theorem subtreeWithin_foldCase (t : Tree) (bound : Nat) (n : NodeId) :
    t.foldCase.subtreeWithin bound n = t.subtreeWithin bound n := by
  induction bound generalizing n with
  | zero => rfl
  | succ bound ih => rw [subtreeWithin, subtreeWithin, children_foldCase, funext ih]

/-- The way along a link is the same. -/
@[simp] theorem elementAlong?_foldCase (t : Tree) (link : NodeId → Option NodeId) (bound : Nat)
    (n : NodeId) : t.foldCase.elementAlong? link bound n = t.elementAlong? link bound n := by
  induction bound generalizing n with
  | zero => rfl
  | succ bound ih => simp only [elementAlong?, isElement_foldCase, ih]

/-- The next element is the same. -/
theorem nextElement?_foldCase (t : Tree) (n : NodeId) :
    t.foldCase.nextElement? n = t.nextElement? n := by
  rw [nextElement?, nextElement?, elementAlong?_foldCase, size_foldCase, funext t.next?_foldCase]

/-- The nodes at or below a node are the same. -/
theorem subtree_foldCase (t : Tree) (n : NodeId) : t.foldCase.subtree n = t.subtree n := by
  rw [subtree, subtree, descendants, descendants, children_foldCase, size_foldCase,
    funext (t.subtreeWithin_foldCase t.size)]

/-- The nodes below a node are the same. -/
theorem isDescendantOf_foldCase (t : Tree) (n ancestor : NodeId) :
    t.foldCase.isDescendantOf n ancestor = t.isDescendantOf n ancestor := by
  rw [isDescendantOf, isDescendantOf, ancestors, ancestors, size_foldCase,
    ancestorsWithin_foldCase]

/-- The first element with an id is the same. -/
theorem elementById?_foldCase (t : Tree) (scope : NodeId) (id : Text) :
    t.foldCase.elementById? scope id = t.elementById? scope id := by
  have hid : ∀ n, (t.foldCase.element? n).bind Element.id? = (t.element? n).bind Element.id? := by
    intro n
    rw [element?_foldCase, Option.bind_map]
    rfl
  simp only [elementById?, subtree_foldCase, hid]

/-- A folded tree is looked at as the tree is, its tags folded. -/
theorem source_foldCase (t : Tree) : t.foldCase.source = t.source.foldCase := by
  have htag : ∀ n, (t.foldCase.element? n).map (·.tag) =
      ((t.element? n).map (·.tag)).map Text.foldCase := by
    intro n
    rw [element?_foldCase, Option.map_map, Option.map_map]
    rfl
  have hvalue : ∀ n name, (t.foldCase.element? n).bind (·.value? name) =
      (t.element? n).bind (·.value? name) := by
    intro n name
    rw [element?_foldCase, Option.bind_map]
    rfl
  rw [source, source, Source.foldCase, Source.mk.injEq]
  exact ⟨rfl, funext t.parent?_foldCase, funext t.children_foldCase, funext htag, funext₂ hvalue,
    t.size_foldCase⟩

/-- The own lookups of a folded tree answer as those of the tree do. -/
theorem view_foldCase (t : Tree) : t.foldCase.view = t.view.foldCase := by
  have hclass : ∀ n name, (t.foldCase.element? n).any (·.hasClass name) =
      (t.element? n).any (·.hasClass name) := by
    intro n name
    rw [element?_foldCase, Option.any_map]
    rfl
  rw [view, view, View.foldCase, View.mk.injEq]
  exact ⟨t.source_foldCase, funext₂ hclass, funext t.nextElement?_foldCase,
    funext t.subtree_foldCase, funext₂ t.elementById?_foldCase, funext₂ t.isDescendantOf_foldCase⟩

/-- A folded tree is looked at through the folded views of the tree. -/
theorem viewBy_foldCase (t : Tree) (lookup : Lookup) :
    t.foldCase.viewBy lookup = (t.viewBy lookup).foldCase := by
  cases lookup with
  | own => exact t.view_foldCase
  | scanning => exact (congrArg Source.view t.source_foldCase).trans t.source.view_foldCase

end Tree

/-- **The case of tags and type names does not tell.** Two lists that are the same up to the case of
ASCII letters in their type names find the same nodes, in the same order and as often, in two trees
that are the same up to the case of ASCII letters in their tags: from every node, with every choice
of options, and whether a tree answers by its own lookups or by scanning. Nothing more is overlooked
than the case: a type name alone finds just the elements whose tag is the name up to the case. -/
theorem SelectorList.matches_of_foldCase_eq {list other : SelectorList} {t r : Tree}
    (hlist : list.foldCase = other.foldCase) (htree : t.foldCase = r.foldCase)
    (lookup : Tree.Lookup) (options : Options) (scope : NodeId) :
    list.matches (t.viewBy lookup) options scope =
        other.matches (r.viewBy lookup) options scope ∧
      ∀ name, SelectorList.matches [{ head := { tag := some (.named name) } }] (t.viewBy lookup)
          options scope =
        ((t.viewBy lookup).subtree scope).filter fun n =>
          ((t.viewBy lookup).tag? n).any fun tag => tag.foldCase == name.foldCase := by
  constructor
  · calc list.matches (t.viewBy lookup) options scope
        = list.foldCase.matches (t.foldCase.viewBy lookup) options scope := by
          rw [t.viewBy_foldCase, matches_foldCase]
      _ = other.foldCase.matches (r.foldCase.viewBy lookup) options scope := by rw [hlist, htree]
      _ = other.matches (r.viewBy lookup) options scope := by
          rw [r.viewBy_foldCase, matches_foldCase]
  · intro name
    rw [SelectorList.matches, List.flatMap_singleton]
    exact Simple.resolve_named name (t.viewBy lookup) scope

/-- A list with two items, by the ways in which its tags are written. -/
def listedIn (list first second : String) : Tree :=
  .ofDocument [.element list.toList .empty
    [.element first.toList .empty [], .element second.toList .empty []]]

/-- A chain for an item that stands before another item of a list, by the ways in which its type
names are written. -/
def itemChain (list first second : String) : SelectorList :=
  [{ head := { tag := some (.named list.toList) }
     rest := [(.child, { tag := some (.named first.toList) }),
      (.subsequentSibling, { tag := some (.named second.toList) })] }]

/-- The item that stands before another is found, however the tags and the names are written, and
both items are found by their name. -/
theorem matches_of_foldCase_eq_listedIn :
    (itemChain "uL" "li" "LI").foldCase = (itemChain "ul" "Li" "lI").foldCase ∧
      (listedIn "UL" "Li" "li").foldCase = (listedIn "ul" "LI" "lI").foldCase ∧
      (itemChain "uL" "li" "LI").matches ((listedIn "UL" "Li" "li").viewBy .own) {} 0 = [2] ∧
      (itemChain "ul" "Li" "lI").matches ((listedIn "ul" "LI" "lI").viewBy .own) {} 0 = [2] ∧
      SelectorList.matches [{ head := { tag := some (.named "LI".toList) } }]
        ((listedIn "UL" "Li" "li").viewBy .own) {} 0 = [2, 3] := by
  have hlist : (itemChain "uL" "li" "LI").foldCase = (itemChain "ul" "Li" "lI").foldCase := by
    decide
  have htree : (listedIn "UL" "Li" "li").foldCase = (listedIn "ul" "LI" "lI").foldCase := by
    decide +kernel
  have hfound : (itemChain "uL" "li" "LI").matches ((listedIn "UL" "Li" "li").viewBy .own) {} 0 =
      [2] := by decide
  obtain ⟨hsame, hnamed⟩ := SelectorList.matches_of_foldCase_eq hlist htree .own {} 0
  exact ⟨hlist, htree, hfound, hsame.symm.trans hfound, (hnamed _).trans (by decide)⟩

end TreeSelect
