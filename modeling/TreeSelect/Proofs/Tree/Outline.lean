import Mathlib.Algebra.Ring.Nat
import TreeSelect.Proofs.Document.Grafting
import TreeSelect.Tree
/-!
# The lines of an outline

An outline has the nodes of a subtree in document order, each with two spaces for every level below
the topmost one and a line break behind it. Whether this is one line for each node depends on the
nodes. A text is shown without its line breaks; tags, attributes and comments are shown as they are,
and each line break in one of them begins another line.

## Main definitions

* `Tree.level`: the number of nodes above a node.
* `Tree.outlineLine`: a node as it stands in the outline of a subtree.
* `Node.Kind.breaks`, `Tree.breaks`: the line breaks that a node shows.

## Main statements

* `Text.count_lines`, `Text.splitOn_lines_iff`: line breaks in lines, and the lines read back.
* `Node.Kind.count_label`: what a node shows of its line breaks.
* `WellLinked.outline_eq`: an outline is its lines, in document order.
* `Built.outline_by_lines`: **how many lines an outline has, and when it has one for each node.**
-/

namespace TreeSelect

/-! ### Lines -/

namespace Text

/-- Cutting a text at a character gives one part more than there are places to cut at. -/
theorem length_splitOn (t : Text) (c : Char) : (t.splitOn c).length = t.count c + 1 := by
  induction t with
  | nil => rfl
  | cons x t ih =>
      rw [List.splitOn_cons_eq_if_modifyHead, List.count_cons]
      split <;> simp [ih]

/-- Lines with a line break behind each have these line breaks and those within them. -/
theorem count_lines (lines : List Text) :
    (lines.flatMap (· ++ ['\n'])).count '\n' =
      lines.length + (lines.map (List.count '\n')).sum := by
  induction lines with
  | nil => rfl
  | cons line rest ih =>
      simp only [List.flatMap_cons, List.count_append, ih, List.length_cons, List.map_cons,
        List.sum_cons, List.count_singleton_self]
      omega

/-- Lines with a line break behind each are parts with a line break between them, the last of which
is empty. -/
theorem intercalate_lines (lines : List Text) :
    ['\n'].intercalate (lines ++ [[]]) = lines.flatMap (· ++ ['\n']) := by
  induction lines with
  | nil => rfl
  | cons line rest ih =>
      obtain ⟨next, further, hrest⟩ : ∃ next further, rest ++ [[]] = next :: further :=
        List.exists_cons_of_ne_nil (by simp)
      rw [List.flatMap_cons, ← ih, List.cons_append, hrest, List.intercalate_cons_cons,
        List.append_assoc]

/-- **Lines are read back exactly if no line holds a line break.** -/
theorem splitOn_lines_iff {lines : List Text} :
    (lines.flatMap (· ++ ['\n'])).splitOn '\n' = lines ++ [[]] ↔ ∀ line ∈ lines, '\n' ∉ line := by
  constructor
  · intro hsplit line hline
    -- the parts are too few for a further line break
    have hlength := length_splitOn (lines.flatMap (· ++ ['\n'])) '\n'
    rw [hsplit, count_lines, List.length_append, List.length_singleton] at hlength
    have hnone : (lines.map (List.count '\n')).sum = 0 := by omega
    exact List.count_eq_zero.mp
      (List.sum_eq_zero_iff_forall_eq_nat.mp hnone _ (List.mem_map_of_mem hline))
  · intro h
    rw [← intercalate_lines]
    refine List.splitOn_intercalate '\n' (fun line hline => ?_) (by simp)
    rcases List.mem_append.mp hline with hline | hline
    · exact h line hline
    · rw [List.mem_singleton.mp hline]
      exact List.not_mem_nil

end Text

/-! ### One node -/

/-- The line breaks that an attribute shows. -/
def Attributes.breaksOfEntry (entry : Text × Text) : Nat :=
  entry.1.count '\n' + entry.2.count '\n'

/-- The line breaks that a node shows: those in a tag and in the names and values of attributes, and
those in a comment. -/
def Node.Kind.breaks : Node.Kind → Nat
  | document => 0
  | element e => e.tag.count '\n' + (e.attributes.entries.map Attributes.breaksOfEntry).sum
  | text _ => 0
  | comment t => t.count '\n'

/-- An attribute shows the line breaks in its name and in its value. -/
theorem Attributes.count_labelEntry (entry : Text × Text) :
    (Attributes.labelEntry entry).count '\n' = Attributes.breaksOfEntry entry := by
  obtain ⟨name, value⟩ := entry
  cases value with
  | nil => rfl
  | cons c value =>
      show (name ++ "=\"".toList ++ c :: value ++ ['"']).count '\n' = _
      rw [List.count_append, List.count_append, List.count_append]
      rfl

/-- A start tag shows the line breaks in the tag and in the attributes. -/
theorem Element.count_startTag (e : Element) :
    e.startTag.count '\n' =
      e.tag.count '\n' + (e.attributes.entries.map Attributes.breaksOfEntry).sum := by
  have hentries : (e.attributes.entries.flatMap fun entry =>
      ' ' :: Attributes.labelEntry entry).count '\n' =
        (e.attributes.entries.map Attributes.breaksOfEntry).sum := by
    rw [List.count_flatMap]
    refine congrArg List.sum (List.map_congr_left fun entry _ => ?_)
    rw [Function.comp_apply, List.count_cons, Attributes.count_labelEntry]
    rfl
  simp [startTag, List.count_append, hentries]

/-- A text is shown without line breaks. -/
theorem Node.Kind.count_labelChar (t : Text) : (t.flatMap labelChar).count '\n' = 0 := by
  rw [List.count_eq_zero, List.mem_flatMap]
  rintro ⟨c, -, hc⟩
  rw [labelChar] at hc
  split at hc
  · simp at hc
  · rename_i hne
    exact hne (List.mem_singleton.mp hc).symm

/-- **A node shows all its line breaks but those of a text.** -/
theorem Node.Kind.count_label (kind : Node.Kind) : kind.label.count '\n' = kind.breaks := by
  cases kind with
  | document => rfl
  | element e => exact e.count_startTag
  | text t =>
      show ('"' :: t.flatMap labelChar ++ ['"']).count '\n' = 0
      rw [List.count_append, List.count_cons, count_labelChar]
      rfl
  | comment t =>
      show ("<!-- ".toList ++ t ++ " -->".toList).count '\n' = t.count '\n'
      have hopening : "<!-- ".toList.count '\n' = 0 := by decide
      have hclosing : " -->".toList.count '\n' = 0 := by decide
      rw [List.count_append, List.count_append, hopening, hclosing, Nat.zero_add, Nat.add_zero]

namespace Tree

/-! ### Levels -/

/-- The number of nodes above a node. -/
def level (t : Tree) (n : NodeId) : Nat :=
  (t.ancestors n).length

/-- A node as it stands in the outline of a subtree: two spaces for each level below the topmost
node, and then what the node is. -/
def outlineLine (t : Tree) (top n : NodeId) : Text :=
  List.replicate (2 * (t.level n - t.level top)) ' ' ++ ((t.kind? n).map (·.label)).getD []

/-- The line breaks that the node at a place shows. -/
def breaks (t : Tree) (n : NodeId) : Nat :=
  ((t.kind? n).map (·.breaks)).getD 0

/-- The line of a node shows the line breaks that the node shows. -/
theorem count_outlineLine (t : Tree) (top n : NodeId) :
    (t.outlineLine top n).count '\n' = t.breaks n := by
  have hindent : ∀ width, (List.replicate width ' ').count '\n' = 0 := fun width =>
    List.count_eq_zero.mpr fun hmem => by simpa using List.eq_of_mem_replicate hmem
  rw [outlineLine, List.count_append, hindent, Nat.zero_add, breaks]
  cases t.kind? n with
  | none => rfl
  | some kind => exact kind.count_label

namespace WellLinked

variable {t : Tree}

/-- A child is one level below its parent. -/
theorem level_of_parent? (h : t.WellLinked) {n p : NodeId} (hp : t.parent? n = some p) :
    t.level n = t.level p + 1 := by
  rw [level, h.ancestors_of_parent? hp, List.length_cons, level]

/-- What lies below a node has no smaller level. -/
theorem level_le_of_atOrBelow (h : t.WellLinked) {n scope : NodeId} (hn : t.AtOrBelow n scope) :
    t.level scope ≤ t.level n := by
  induction hn with
  | refl => exact Nat.le_refl _
  | tail _ hp ih =>
      rw [h.level_of_parent? hp]
      exact Nat.le_succ_of_le ih

/-! ### Outlines -/

/-- The lines that are written from a node and a level on are those of the nodes in the walk down
from there. Each child is met one level further down. -/
theorem outlineLines_eq (h : t.WellLinked) {bound start : Nat} {top : NodeId}
    (htop : top < t.size) :
    t.outlineLines bound start top =
      (t.subtreeWithin bound top).map fun n =>
        List.replicate (2 * (start + (t.level n - t.level top))) ' ' ++
          ((t.kind? n).map (·.label)).getD [] := by
  induction bound generalizing start top with
  | zero => rfl
  | succ bound ih =>
      obtain ⟨node, hnode⟩ := Option.isSome_iff_exists.mp (node?_isSome_iff.mpr htop)
      have hchildren : t.children top = node.children := by simp [children, hnode]
      have hkind : t.kind? top = some node.kind := by simp [kind?, hnode]
      rw [outlineLines, hnode, subtreeWithin, List.map_cons, hkind, Nat.sub_self, List.map_flatMap,
        hchildren]
      refine congrArg (List.cons _) (List.flatMap_congr fun c hc => ?_)
      have hmem : c ∈ t.children top := hchildren ▸ hc
      rw [ih (h.lt_size_of_mem hmem)]
      refine List.map_congr_left fun n hn => ?_
      have hlevel := h.level_of_parent? (h.parent?_eq_some_iff.mpr hmem)
      have hle := h.level_le_of_atOrBelow (h.atOrBelow_of_mem_subtreeWithin hn)
      have hwidth : start + 1 + (t.level n - t.level c) = start + (t.level n - t.level top) := by
        omega
      rw [hwidth]

/-- **An outline is the lines of its nodes, in document order**, with a line break behind each. -/
theorem outline_eq (h : t.WellLinked) {n : NodeId} (hn : n < t.size) :
    t.outline n = ((t.subtree n).map (t.outlineLine n)).flatMap (· ++ ['\n']) := by
  have hwalk : t.subtreeWithin t.size n = t.subtree n :=
    (h.subtreeWithin_succ hn (Nat.le_add_left _ _)).symm
  rw [outline, h.outlineLines_eq hn, hwalk]
  simp only [Nat.zero_add]
  rfl

end WellLinked

/-- **How many lines an outline has, and when it has one for each node.** In every grown tree the
outline of a subtree is the lines of its nodes in document order, each indented by two spaces for
every level below the topmost node, with a line break behind each. Its line breaks are one for each
node and those that the nodes show. So it has one line for each node exactly if no node shows a line
break, and exactly then its lines are read back from it. -/
theorem Built.outline_by_lines {t : Tree} (h : t.Built) {n : NodeId} (hn : n < t.size) :
    let lines := (t.subtree n).map (t.outlineLine n)
    t.outline n = lines.flatMap (· ++ ['\n']) ∧
      (t.outline n).count '\n' = (t.subtree n).length + ((t.subtree n).map t.breaks).sum ∧
      ((t.outline n).count '\n' = (t.subtree n).length ↔ ∀ m ∈ t.subtree n, t.breaks m = 0) ∧
      ((t.outline n).splitOn '\n' = lines ++ [[]] ↔ ∀ m ∈ t.subtree n, t.breaks m = 0) := by
  intro lines
  have houtline : t.outline n = lines.flatMap (· ++ ['\n']) := h.wellLinked.outline_eq hn
  have hcount : (t.outline n).count '\n' =
      (t.subtree n).length + ((t.subtree n).map t.breaks).sum := by
    rw [houtline, Text.count_lines, List.length_map, List.map_map]
    congr 2
    exact List.map_congr_left fun m _ => t.count_outlineLine n m
  refine ⟨houtline, hcount, ?_, ?_⟩
  · rw [hcount, Nat.add_eq_left, List.sum_eq_zero_iff_forall_eq_nat, List.forall_mem_map]
  · rw [houtline, Text.splitOn_lines_iff, List.forall_mem_map]
    refine forall₂_congr fun m _ => ?_
    rw [← t.count_outlineLine n m, List.count_eq_zero]

/-- A list with an item, whose text has a line break, and a comment. -/
def listedPage : Tree :=
  ofDocument [.element ['u', 'l'] .empty
    [.element ['l', 'i'] (.ofList [("id".toList, ['x'])]) [.text ['a', '\n', 'b']],
      .comment ['c']]]

/-- The list takes four lines, for the line break of the text is not shown. -/
theorem outline_by_lines_listedPage :
    listedPage.Built ∧ 1 < listedPage.size ∧ listedPage.subtree 1 = [1, 2, 3, 4] ∧
      (listedPage.outline 1).count '\n' = 4 ∧
      (listedPage.outline 1).splitOn '\n' =
        ["<ul>".toList, "  <li id=\"x\">".toList, "    \"a\\nb\"".toList,
          "  <!-- c -->".toList, []] := by
  have hbuilt : listedPage.Built := built_ofDocument _
  have hsize : 1 < listedPage.size := by decide
  obtain ⟨-, -, hcount, hlines⟩ := hbuilt.outline_by_lines hsize
  have hshown : ∀ m ∈ listedPage.subtree 1, listedPage.breaks m = 0 := by decide
  exact ⟨hbuilt, hsize, by decide, hcount.mpr hshown, hlines.mpr hshown⟩

/-- A comment of two lines. -/
def twoLineComment : Tree :=
  ofDocument [.comment ['a', '\n', 'b']]

/-- **A comment of two lines takes two lines**, although it is one node: nothing marks its line
break as the one in a text is marked. -/
theorem count_outline_ne_of_break_in_comment :
    twoLineComment.Built ∧ 1 < twoLineComment.size ∧
      twoLineComment.outline 1 = "<!-- a\nb -->\n".toList ∧
      (twoLineComment.outline 1).count '\n' ≠ (twoLineComment.subtree 1).length :=
  ⟨built_ofDocument _, by decide, by decide, by decide⟩

end Tree

end TreeSelect
