import TreeSelect.Proofs.Tree.Position
import TreeSelect.Proofs.Tree.Traversal
import TreeSelect.Query.Match
/-!
# Lookups and scans

A simple selector could be resolved by holding every node of the subtree against it. Instead one of
three lookups finds candidates first, each by a test of its own: the first element with the id, the
elements with the first class, or the elements whose tag is asked for by the printed type. The last
two find all that the selector accepts, whatever its names are. The first one finds a single
element, so resolving by an id is a scan of the elements that carry it which stops after the first.

A tree answers five questions about itself by lookups of its own, where any other tree is scanned
through the five ways of looking at it. The two agree for every tree whose links agree: the
neighbours that are stored beside a node are those that its parent lists beside it, and the other
four lookups read the same data in the same order. So what is found does not depend on how it is
looked up.

## Main definitions

* `View.elementsWithId`: the elements that carry an id, all of them.

## Main statements

* `Simple.resolve_eq_filter`: without an id, resolving is filtering the subtree.
* `Tree.WellLinked.source_view`: scanning and the tree's own lookups are one view.
* `Tree.Built.matches_source_view`: **every selector list finds the same by both.**
* `Tree.resolve_eq_filter_take`: resolving by an id looks at the first element that carries it.
* `Tree.Built.resolve_eq_scan`: **when a lookup finds what a scan finds, and what it finds
  otherwise.**
-/

namespace TreeSelect

/-! ### Lookups without an id -/

namespace Simple

variable {ν : Type}

/-- A tag that a selector accepts is asked for by the name that the selector looks up. -/
theorem asksForTag_of_acceptsTag {s : Simple} {tag : Text} (h : s.acceptsTag tag = true) :
    View.asksForTag ((s.tag.map TypeSelector.text).getD ['*']) tag = true := by
  unfold acceptsTag at h
  cases htag : s.tag with
  | none => rfl
  | some type =>
      cases type with
      | universal => rfl
      | named name =>
          have hfold : name.foldCase = tag.foldCase := by simpa [htag, TypeSelector.accepts] using h
          simp [TypeSelector.text, View.asksForTag, hfold]

/-- What a selector without an id accepts is among what its lookup finds. -/
theorem mem_candidates_of_accepts {s : Simple} {v : View ν} {scope n : ν} (hid : s.id = none)
    (hmem : n ∈ v.subtree scope) (haccepts : s.accepts v n = true) :
    n ∈ s.candidates v scope := by
  have helement := isElement_of_accepts haccepts
  obtain ⟨tag, htag⟩ := Option.isSome_iff_exists.mp helement
  simp only [accepts, htag, Bool.and_eq_true] at haccepts
  obtain ⟨⟨⟨hname, -⟩, hclasses⟩, -⟩ := haccepts
  unfold candidates
  rw [hid]
  cases hlist : s.classes with
  | nil => simp [View.elementsByTag, hmem, htag, asksForTag_of_acceptsTag hname]
  | cons name more =>
      have hclass : v.hasClass n name = true :=
        List.all_eq_true.mp hclasses name (by simp [hlist])
      simp [View.elementsByClass, hmem, helement, hclass]

/-- With an id the lookup is the one by id, which finds one element at most. -/
theorem candidates_of_id {s : Simple} {id : Text} (hid : s.id = some id) (v : View ν) (scope : ν) :
    s.candidates v scope = (v.elementById? scope id).toList := by
  simp [candidates, hid]

/-- Without an id every lookup stays within the subtree and keeps its order. -/
theorem exists_candidates_eq_filter {s : Simple} (hid : s.id = none) (v : View ν) (scope : ν) :
    ∃ found : ν → Bool, s.candidates v scope = (v.subtree scope).filter found := by
  unfold candidates
  rw [hid]
  cases s.classes with
  | nil => exact ⟨_, rfl⟩
  | cons name more => exact ⟨_, rfl⟩

/-- **Without an id, resolving is filtering the subtree**: the narrow lookups only save work. -/
theorem resolve_eq_filter {s : Simple} (hid : s.id = none) (v : View ν) (scope : ν) :
    s.resolve v scope = (v.subtree scope).filter (s.accepts v) := by
  obtain ⟨found, hfound⟩ := exists_candidates_eq_filter hid v scope
  rw [resolve, hfound, List.filter_filter]
  refine List.filter_congr fun n hn => ?_
  cases haccepts : s.accepts v n with
  | false => rfl
  | true =>
      have hmem := mem_candidates_of_accepts hid hn haccepts
      rw [hfound] at hmem
      simpa using (List.mem_filter.mp hmem).2

end Simple

namespace Tree

variable {t : Tree}

/-! ### The lookups one by one -/

/-- Scanning meets the same way up. -/
theorem ancestors_source (t : Tree) (n : NodeId) : t.source.ancestors n = t.ancestors n :=
  ancestorsWithin_source t t.size n

/-- Being below a node means the same by scanning. -/
theorem isDescendantOf_source_view (t : Tree) (n ancestor : NodeId) :
    t.source.view.isDescendantOf n ancestor = t.isDescendantOf n ancestor := by
  rw [isDescendantOf, ← ancestors_source]
  rfl

/-- Having an id means the same by scanning. -/
theorem isElement_and_id_source (t : Tree) (n : NodeId) (id : Text) :
    (t.source.isElement n && t.source.value? n "id".toList == some id) =
      ((t.element? n).bind Element.id? == some id) := by
  rw [isElement_source, isElement]
  show (_ && ((t.element? n).bind fun e => e.value? "id".toList) == some id) = _
  cases t.element? n with
  | none => rfl
  | some e => rfl

/-- The first element with an id is the same by scanning. -/
theorem elementById?_source_view (t : Tree) (scope : NodeId) (id : Text) :
    t.source.view.elementById? scope id = t.elementById? scope id := by
  have hsubtree : t.source.subtreeWithin t.size scope = t.subtree scope :=
    subtree_source_view t scope
  show (t.source.subtreeWithin t.size scope).find? _ = _
  rw [hsubtree, elementById?]
  congr 1
  funext n
  exact isElement_and_id_source t n id

/-- Scanning finds what is listed behind a node. -/
theorem elementAfter?_append_cons (t : Tree) {before after : List NodeId} {n : NodeId}
    (hn : n ∉ before) :
    t.source.elementAfter? n (before ++ n :: after) = after.find? t.isElement := by
  have hbefore : ∀ m ∈ before, (m != n) = true := by
    intro m hm
    rw [bne_iff_ne]
    rintro rfl
    exact hn hm
  have helement : t.source.isElement = t.isElement := funext (isElement_source t)
  rw [Source.elementAfter?, List.dropWhile_append_of_pos hbefore, helement]
  simp

/-- **The nearest element after a node is the same by scanning**: the links between neighbours lead
through the children that the parent lists behind the node. -/
theorem WellLinked.nextElement?_source_view (h : t.WellLinked) (n : NodeId) :
    t.source.view.nextElement? n = t.nextElement? n := by
  show ((t.parent? n).bind fun p => t.source.elementAfter? n (t.children p)) = _
  cases hp : t.parent? n with
  | none => rw [(h.elements_of_detached hp).1, Option.bind_none]
  | some p =>
      obtain ⟨before, after, hsplit⟩ := List.append_of_mem (h.parent?_eq_some_iff.mp hp)
      have hnodup := h.nodup_children p
      rw [hsplit] at hnodup
      have hn : n ∉ before := fun hmem => (List.nodup_append.mp hnodup).2.2 n hmem n (by simp) rfl
      rw [Option.bind_some, hsplit, elementAfter?_append_cons t hn,
        h.nextElement?_eq_find? hsplit]

/-! ### One view -/

/-- **Scanning a well-linked tree and asking its own lookups are one view.** -/
theorem WellLinked.source_view (h : t.WellLinked) : t.source.view = t.view := by
  have hclass : t.source.view.hasClass = t.view.hasClass :=
    funext₂ (hasClass_source_view t)
  have hnext : t.source.view.nextElement? = t.nextElement? :=
    funext h.nextElement?_source_view
  have hsubtree : t.source.view.subtree = t.subtree := funext (subtree_source_view t)
  have hid : t.source.view.elementById? = t.elementById? :=
    funext₂ (elementById?_source_view t)
  have hbelow : t.source.view.isDescendantOf = t.isDescendantOf :=
    funext₂ (isDescendantOf_source_view t)
  calc t.source.view
      = ⟨t.source, t.source.view.hasClass, t.source.view.nextElement?, t.source.view.subtree,
          t.source.view.elementById?, t.source.view.isDescendantOf⟩ := rfl
    _ = t.view := by
        rw [hclass, hnext, hsubtree, hid, hbelow]
        rfl

/-- A well-linked tree looks the same in both ways. -/
theorem WellLinked.viewBy_eq (h : t.WellLinked) (lookup : Lookup) : t.viewBy lookup = t.view := by
  cases lookup with
  | own => rfl
  | scanning => exact h.source_view

/-- **What is found does not depend on how it is looked up.** In every grown tree and below every
node, each selector list finds the same nodes in the same order by scanning and by the tree's own
lookups, whatever the options. -/
theorem Built.matches_source_view {t : Tree} (h : t.Built) (list : SelectorList)
    (options : Options) (scope : NodeId) :
    list.matches t.view options scope = list.matches t.source.view options scope := by
  rw [h.wellLinked.source_view]

/-- A list of two items around a text, attached below the document after it was filled. The first
item has an id, the second a class. -/
def lateItems : Tree :=
  ((((empty.alloc (.element ⟨['u', 'l'], .empty⟩)).append 1
    (.element ⟨['l', 'i'], .ofList [("id".toList, ['x'])]⟩)).append 1 (.text ['-'])).append 1
      (.element ⟨['l', 'i'], .ofList [("class".toList, ['a'])]⟩)).attach 0 1

/-- The item after the one with the id, and the items before one with the class. -/
def askItems : SelectorList :=
  [⟨{ id := some ['x'] }, [(.nextSibling, { classes := [['a']] })]⟩,
    ⟨{ tag := some (.named ['U', 'L']) }, [(.descendant, { tag := some (.named ['l', 'i']) }),
      (.subsequentSibling, { classes := [['a']] })]⟩]

/-- The late items are found through their links and in the list of their parent. -/
theorem matches_source_view_lateItems :
    lateItems.Built ∧ askItems.matches lateItems.view {} 0 = [4, 2] ∧
      askItems.matches lateItems.source.view {} 0 = [4, 2] := by
  have hbuilt : lateItems.Built := by
    refine .attach (.append _ (.append _ (.append _ (.alloc _ .empty) ?_) ?_) ?_) ?_ ?_ ?_ ?_ ?_ ?_
    all_goals decide
  have hfound : askItems.matches lateItems.view {} 0 = [4, 2] := by decide
  exact ⟨hbuilt, hfound, hbuilt.matches_source_view askItems {} 0 ▸ hfound⟩

end Tree

/-! ### Lookups by id -/

/-- The elements with an id at or below a node. -/
def View.elementsWithId {ν : Type} (v : View ν) (scope : ν) (id : Text) : List ν :=
  (v.subtree scope).filter fun n => v.isElement n && v.value? n "id".toList == some id

namespace Simple

variable {ν : Type} {s : Simple} {id : Text}

/-- What a selector with an id accepts carries the id. -/
theorem value?_id_of_accepts {v : View ν} {n : ν} (hid : s.id = some id)
    (h : s.accepts v n = true) : v.value? n "id".toList = some id := by
  obtain ⟨tag, htag⟩ := Option.isSome_iff_exists.mp (isElement_of_accepts h)
  simp only [accepts, htag, hid, Bool.and_eq_true, Option.all_some, beq_iff_eq] at h
  exact h.1.1.2

/-- Nothing is lost by scanning only the elements that carry the id. -/
theorem filter_elementsWithId (hid : s.id = some id) (v : View ν) (scope : ν) :
    (v.elementsWithId scope id).filter (s.accepts v) =
      (v.subtree scope).filter (s.accepts v) := by
  rw [View.elementsWithId, List.filter_filter]
  refine List.filter_congr fun n _ => ?_
  cases haccepts : s.accepts v n with
  | false => rfl
  | true =>
      rw [isElement_of_accepts haccepts, value?_id_of_accepts hid haccepts]
      simp

end Simple

/-- A list whose members are all the same and stand in it once is its first member. -/
theorem take_one_eq_self {α : Type} {l : List α} (h : l.Nodup)
    (hsame : ∀ a ∈ l, ∀ b ∈ l, a = b) : l.take 1 = l := by
  cases l with
  | nil => rfl
  | cons a rest =>
      cases rest with
      | nil => rfl
      | cons b rest =>
          obtain rfl : a = b := hsame a (by simp) b (by simp)
          exact absurd List.mem_cons_self (List.nodup_cons.mp h).1

namespace Tree

/-- The lookup by id finds the first of the elements that carry the id. -/
theorem elementById?_eq_head? (t : Tree) (scope : NodeId) (id : Text) :
    t.elementById? scope id = (t.view.elementsWithId scope id).head? := by
  rw [View.elementsWithId, List.head?_filter]
  exact congrArg (List.find? · _) (funext fun n => (isElement_and_id_source t n id).symm)

/-- **Resolving by an id looks at the first element that carries it**, and at no other. -/
theorem resolve_eq_filter_take (t : Tree) {s : Simple} {id : Text} (hid : s.id = some id)
    (scope : NodeId) :
    s.resolve t.view scope =
      ((t.view.elementsWithId scope id).take 1).filter (s.accepts t.view) := by
  have hlookup : t.view.elementById? scope id = (t.view.elementsWithId scope id).head? :=
    t.elementById?_eq_head? scope id
  rw [Simple.resolve, Simple.candidates_of_id hid, hlookup, List.take_one]

/-- No element is met twice among those with an id. -/
theorem WellLinked.nodup_elementsWithId {t : Tree} (h : t.WellLinked) (scope : NodeId) (id : Text) :
    (t.view.elementsWithId scope id).Nodup :=
  (h.nodup_subtree scope).filter _

/-- **When a lookup finds what a scan finds, and what it finds otherwise.** In every grown tree,
looked at in either way, and below every node, a simple selector finds exactly the nodes of the
subtree that it accepts, in document order, if it has no id or if at most one element of the subtree
carries its id. If an element carries its id, it finds the first such element or, if it does not
accept that one, nothing. -/
theorem Built.resolve_eq_scan {t : Tree} (h : t.Built) (lookup : Lookup) (s : Simple)
    (scope : NodeId) :
    let v := t.viewBy lookup
    ((∀ id ∈ s.id, ∀ a ∈ v.elementsWithId scope id, ∀ b ∈ v.elementsWithId scope id, a = b) →
      s.resolve v scope = (v.subtree scope).filter (s.accepts v)) ∧
    ∀ id ∈ s.id, ∀ first others, v.elementsWithId scope id = first :: others →
      s.resolve v scope = if s.accepts v first then [first] else [] := by
  intro v
  have hw := h.wellLinked
  have hv : v = t.view := hw.viewBy_eq lookup
  rw [hv]
  constructor
  · intro hsingle
    cases hid : s.id with
    | none => exact Simple.resolve_eq_filter hid t.view scope
    | some id =>
        have hone := take_one_eq_self (hw.nodup_elementsWithId scope id) (hsingle id hid)
        rw [resolve_eq_filter_take t hid, hone, Simple.filter_elementsWithId hid]
  · intro id hid first others hfirst
    rw [resolve_eq_filter_take t hid, hfirst, List.take_succ_cons, List.take_zero,
      List.filter_cons, List.filter_nil]

/-- A list of two items with one id and of an element whose tag is a star. Only the second item has
a class. -/
def sameIds : Tree :=
  (((empty.append 0 (.element ⟨['u', 'l'], .empty⟩)).append 1
    (.element ⟨['l', 'i'], .ofList [("id".toList, ['x'])]⟩)).append 1
      (.element ⟨['l', 'i'], .ofList [("id".toList, ['x']), ("class".toList, ['a'])]⟩)).append 1
        (.element ⟨['*'], .empty⟩)

/-- Below the list the item with the class is not found by id and class, for the other item comes
first; below itself it is. A type that is named by a star finds the element with that tag alone. -/
theorem resolve_eq_scan_sameIds :
    sameIds.Built ∧
      Simple.resolve { id := some ['x'], classes := [['a']] } (sameIds.viewBy .scanning) 0 = [] ∧
      Simple.resolve { id := some ['x'], classes := [['a']] } (sameIds.viewBy .own) 3 = [3] ∧
      Simple.resolve { tag := some (.named ['*']) } (sameIds.viewBy .scanning) 0 = [4] := by
  have hbuilt : sameIds.Built := by
    refine .append _ (.append _ (.append _ (.append _ .empty ?_) ?_) ?_) ?_
    all_goals decide
  have hfirst := (hbuilt.resolve_eq_scan .scanning { id := some ['x'], classes := [['a']] } 0).2
  have hbelow := (hbuilt.resolve_eq_scan .own { id := some ['x'], classes := [['a']] } 3).1
  have hstar := (hbuilt.resolve_eq_scan .scanning { tag := some (.named ['*']) } 0).1
  refine ⟨hbuilt, ?_, ?_, ?_⟩
  · rw [hfirst ['x'] rfl 2 [3] (by decide)]
    decide
  · rw [hbelow (by decide)]
    decide
  · rw [hstar (by decide)]
    decide

end Tree

end TreeSelect
