import Mathlib.Data.List.Induction
import TreeSelect.Proofs.Tree.Descent
/-!
# Grown trees and the elements beside a node

`Built` lists the ways of growing a tree. A node may be attached if it is no root, has no parent
yet and is not met on the way up from its new parent; then the links agree after every step, and
walking along them finds the nearest elements beside a node, in both directions.

## Main definitions

* `Tree.Built`: the trees that growing leads to.
* `Tree.Leads`: a link leads from a node through a list of nodes and then ends.

## Main statements

* `Built.wellLinked`: every grown tree is well linked.
* `Built.links_agree`: **the stored links of every grown tree agree, and the walks along them are
  each other's inverse.**
-/

namespace TreeSelect.Tree

/-- The trees that grow from the document alone. A parent must be a node of the tree. What is
attached must be a node other than the root that has no parent yet and is neither the new parent
nor one of its ancestors. -/
inductive Built : Tree → Prop
  /-- The document alone. -/
  | empty : Built empty
  /-- A detached node is added. -/
  | alloc {t : Tree} (kind : Node.Kind) : Built t → Built (t.alloc kind)
  /-- A new node is appended. -/
  | append {t : Tree} {parent : NodeId} (kind : Node.Kind) :
      Built t → parent < t.size → Built (t.append parent kind)
  /-- A node is appended with everything below it. -/
  | graft {t : Tree} {parent : NodeId} (node : DocumentNode) :
      Built t → parent < t.size → Built (t.graft parent node)
  /-- A detached node is attached. -/
  | attach {t : Tree} {parent child : NodeId} :
      Built t → parent < t.size → child < t.size → child ≠ NodeId.root →
      t.parent? child = none → child ≠ parent → child ∉ t.ancestors parent →
      Built (t.attach parent child)

/-- Every grown tree is well linked. -/
theorem Built.wellLinked {t : Tree} (h : t.Built) : t.WellLinked := by
  induction h with
  | empty => exact wellLinked_empty
  | alloc kind _ ih => exact ih.alloc kind
  | append kind _ hparent ih => exact ih.append hparent kind
  | graft node _ hparent ih => exact ih.graft hparent node
  | attach _ hparent hchild _ hdetached hne hnot ih =>
      refine ih.attach hparent hchild hdetached fun hup => ?_
      rcases Relation.reflTransGen_iff_eq_or_transGen.mp hup with heq | habove
      · exact hne heq.symm
      · exact hnot (ih.mem_ancestors_iff.mpr habove)

/-! ### Walking along a link -/

/-- A link leads from a node through the nodes of a list, in order, and ends there. -/
def Leads (link : NodeId → Option NodeId) : NodeId → List NodeId → Prop
  | n, [] => link n = none
  | n, m :: rest => link n = some m ∧ Leads link m rest

/-- The walk along a link finds the first element of the list that the link leads through. -/
theorem elementAlong?_eq_find? {t : Tree} {link : NodeId → Option NodeId} {bound : Nat}
    {n : NodeId} {l : List NodeId} (hl : Leads link n l) (hbound : l.length ≤ bound) :
    t.elementAlong? link bound n = l.find? t.isElement := by
  induction l generalizing bound n with
  | nil => cases bound <;> simp_all [Leads, elementAlong?]
  | cons m rest ih =>
      obtain ⟨hm, hrest⟩ := hl
      obtain ⟨bound, rfl⟩ : ∃ b, bound = b + 1 := ⟨bound - 1, by
        rw [List.length_cons] at hbound
        omega⟩
      rw [elementAlong?, hm, List.find?_cons]
      cases hm' : t.isElement m with
      | true => simp [hm']
      | false => simpa [hm'] using ih hrest (Nat.le_of_succ_le_succ hbound)

namespace WellLinked

variable {t : Tree}

/-- The links to the neighbour after a child lead through the children listed after it. -/
theorem leads_next? (h : t.WellLinked) {p n : NodeId} {before after : List NodeId}
    (hsplit : t.children p = before ++ n :: after) : Leads t.next? n after := by
  induction after generalizing before n with
  | nil => exact h.next?_of_children hsplit
  | cons m rest ih =>
      have hnext : t.children p = (before ++ [n]) ++ m :: rest := by
        rw [hsplit, List.append_assoc]
        rfl
      exact ⟨h.next?_of_children hsplit, ih hnext⟩

/-- The links to the neighbour before a child lead back through the children listed before it. -/
theorem leads_previous? (h : t.WellLinked) {p n : NodeId} {before after : List NodeId}
    (hsplit : t.children p = before ++ n :: after) : Leads t.previous? n before.reverse := by
  induction before using List.reverseRecOn generalizing n after with
  | nil => exact h.previous?_of_children hsplit
  | append_singleton front m ih =>
      rw [List.reverse_append]
      have hprevious : t.children p = front ++ m :: (n :: after) := by
        rw [hsplit, List.append_assoc]
        rfl
      exact ⟨by simpa using h.previous?_of_children hsplit, ih hprevious⟩

/-- A node has fewer siblings than the tree has nodes. -/
theorem length_children_le (h : t.WellLinked) (p : NodeId) :
    (t.children p).length ≤ t.size :=
  length_le_of_nodup_of_lt (h.nodup_children p) fun _ hc => h.lt_size_of_mem hc

/-- The nearest element after a child is the first element listed after it. -/
theorem nextElement?_eq_find? (h : t.WellLinked) {p n : NodeId} {before after : List NodeId}
    (hsplit : t.children p = before ++ n :: after) :
    t.nextElement? n = after.find? t.isElement := by
  refine elementAlong?_eq_find? (h.leads_next? hsplit) ?_
  have hlength := h.length_children_le p
  rw [hsplit, List.length_append, List.length_cons] at hlength
  omega

/-- The nearest element before a child is the last element listed before it. -/
theorem previousElement?_eq_find? (h : t.WellLinked) {p n : NodeId}
    {before after : List NodeId} (hsplit : t.children p = before ++ n :: after) :
    t.previousElement? n = before.reverse.find? t.isElement := by
  refine elementAlong?_eq_find? (h.leads_previous? hsplit) ?_
  have hlength := h.length_children_le p
  rw [hsplit, List.length_append, List.length_cons] at hlength
  rw [List.length_reverse]
  omega

/-- No element stands beside a node without a parent. -/
theorem elements_of_detached (h : t.WellLinked) {n : NodeId} (hn : t.parent? n = none) :
    t.nextElement? n = none ∧ t.previousElement? n = none :=
  ⟨elementAlong?_eq_find? (l := []) (h.detached hn).1 (Nat.zero_le _),
    elementAlong?_eq_find? (l := []) (h.detached hn).2 (Nat.zero_le _)⟩

/-- One node is the nearest element after another exactly if both are children of one node and it
is the first element listed after the other. -/
theorem nextElement?_eq_some_iff (h : t.WellLinked) {a b : NodeId} :
    t.nextElement? a = some b ↔
      ∃ p before between after, t.children p = before ++ a :: (between ++ b :: after) ∧
        t.isElement b = true ∧ ∀ m ∈ between, t.isElement m = false := by
  constructor
  · intro hb
    obtain ⟨p, hp⟩ : ∃ p, t.parent? a = some p := by
      refine Option.ne_none_iff_exists'.mp fun hnone => ?_
      rw [(h.elements_of_detached hnone).1] at hb
      cases hb
    obtain ⟨before, rest, hsplit⟩ := List.append_of_mem (h.parent?_eq_some_iff.mp hp)
    rw [h.nextElement?_eq_find? hsplit] at hb
    obtain ⟨helement, between, after, rfl, hbetween⟩ := List.find?_eq_some_iff_append.mp hb
    exact ⟨p, before, between, after, hsplit, helement, by simpa using hbetween⟩
  · rintro ⟨p, before, between, after, hsplit, helement, hbetween⟩
    rw [h.nextElement?_eq_find? hsplit, List.find?_eq_some_iff_append]
    exact ⟨helement, between, after, rfl, by simpa using hbetween⟩

/-- One node is the nearest element before another exactly if both are children of one node and it
is the last element listed before the other. -/
theorem previousElement?_eq_some_iff (h : t.WellLinked) {a b : NodeId} :
    t.previousElement? b = some a ↔
      ∃ p before between after, t.children p = before ++ a :: (between ++ b :: after) ∧
        t.isElement a = true ∧ ∀ m ∈ between, t.isElement m = false := by
  constructor
  · intro ha
    obtain ⟨p, hp⟩ : ∃ p, t.parent? b = some p := by
      refine Option.ne_none_iff_exists'.mp fun hnone => ?_
      rw [(h.elements_of_detached hnone).2] at ha
      cases ha
    obtain ⟨front, after, hsplit⟩ := List.append_of_mem (h.parent?_eq_some_iff.mp hp)
    rw [h.previousElement?_eq_find? hsplit] at ha
    obtain ⟨helement, nearer, farther, hfront, hnearer⟩ := List.find?_eq_some_iff_append.mp ha
    refine ⟨p, farther.reverse, nearer.reverse, after, ?_, helement, by simpa using hnearer⟩
    rw [hsplit, ← List.reverse_reverse front, hfront]
    simp
  · rintro ⟨p, before, between, after, hsplit, helement, hbetween⟩
    rw [← List.cons_append, ← List.append_assoc] at hsplit
    rw [h.previousElement?_eq_find? hsplit, List.find?_eq_some_iff_append]
    exact ⟨helement, between.reverse, before.reverse, by simp, by simpa using hbetween⟩

end WellLinked

/-! ### Grown trees -/

/-- **The links of every grown tree agree.** Every stored place is inside the tree; a node's parent
is the node that lists it; no child is listed twice, by one node or by two; the way up from a node
ends, and `ancestors` follows it to its end; and the neighbours of a child are those listed beside
it. Hence the walks along the neighbours find the nearest element listed after and before a node,
and between elements each walk undoes the other. -/
theorem Built.links_agree {t : Tree} (h : t.Built) :
    (∀ n m, t.parent? n = some m ∨ m ∈ t.children n ∨ t.next? n = some m ∨ t.previous? n = some m →
      m < t.size) ∧
    t.WellLinked ∧
    (∀ p q c, c ∈ t.children p → c ∈ t.children q → p = q) ∧
    (∀ n, t.parent? ((n :: t.ancestors n).getLast (by simp)) = none) ∧
    (∀ p n before after, t.children p = before ++ n :: after →
      t.nextElement? n = after.find? t.isElement ∧
        t.previousElement? n = before.reverse.find? t.isElement) ∧
    (∀ n, t.parent? n = none → t.nextElement? n = none ∧ t.previousElement? n = none) ∧
    (∀ a b, t.isElement a = true → t.isElement b = true →
      (t.nextElement? a = some b ↔ t.previousElement? b = some a)) := by
  have hw := h.wellLinked
  refine ⟨fun n m => hw.lt_size_of_link, hw, fun p q c => hw.parent_unique,
    hw.parent?_getLast_ancestors, fun p n before after hsplit => ?_,
    fun n => hw.elements_of_detached, fun a b ha hb => ?_⟩
  · exact ⟨hw.nextElement?_eq_find? hsplit, hw.previousElement?_eq_find? hsplit⟩
  · rw [hw.nextElement?_eq_some_iff, hw.previousElement?_eq_some_iff]
    simp only [ha, hb]

/-- A list of two elements around a text, attached below the document after it was filled. -/
theorem links_agree_attached_late :
    let t := ((((empty.alloc (.element ⟨['u', 'l'], .empty⟩)).append 1
      (.element ⟨['l', 'i'], .empty⟩)).append 1 (.text ['-'])).append 1
        (.element ⟨['l', 'i'], .empty⟩)).attach 0 1
    t.Built ∧ t.nextElement? 2 = some 4 ∧ t.previousElement? 4 = some 2 := by
  intro t
  have hbuilt : t.Built := by
    refine .attach (.append _ (.append _ (.append _ (.alloc _ .empty) ?_) ?_) ?_) ?_ ?_ ?_ ?_ ?_ ?_
    all_goals decide
  obtain ⟨-, -, -, -, hwalks, -, hinverse⟩ := hbuilt.links_agree
  have hnext : t.nextElement? 2 = some 4 := (hwalks 1 2 [] [3, 4] (by decide)).1
  exact ⟨hbuilt, hnext, (hinverse 2 4 (by decide) (by decide)).mp hnext⟩

end TreeSelect.Tree
