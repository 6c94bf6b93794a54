import Mathlib.Data.List.Basic
import Mathlib.Data.List.Nodup
import Mathlib.Logic.Relation
import TreeSelect.Document
import TreeSelect.Tree
/-!
# The links of a grown tree agree

A node stores its parent, its children and its two neighbours, and each of these facts is stored
at a second place as well: the parent lists the child, the neighbours stand next to each other in
that list. `WellLinked` says that all places tell the same story, and every way of growing a tree
keeps it.

The one obligation with an argument in it is that the way up from a node ends. Attaching a node
adds a single step upward, from the node to its new parent, and no old step leads from that
parent, or from anything above it, back to the node.

## Main definitions

* `Tree.WellLinked`: the stored links agree with one another.
* `Tree.ParentOf`: one step of the way up from a node.

## Main statements

* `WellLinked.alloc`, `WellLinked.append`, `WellLinked.attach`, `WellLinked.graft`: each step keeps
  the agreement.
-/

namespace TreeSelect.Tree

/-! ### The links of a node after one step -/

/-- No node stands at or beyond the size. -/
theorem node?_eq_none_of_le {t : Tree} {n : NodeId} (h : t.size ≤ n) : t.node? n = none :=
  Array.getElem?_eq_none h

/-- A node with a parent is in the tree. -/
theorem lt_size_of_parent? {t : Tree} {n p : NodeId} (h : t.parent? n = some p) :
    n < t.size := by
  refine Nat.lt_of_not_le fun hle => ?_
  rw [parent?, node?_eq_none_of_le hle] at h
  cases h

/-- A node with a child is in the tree. -/
theorem lt_size_of_mem_children {t : Tree} {p c : NodeId} (h : c ∈ t.children p) :
    p < t.size := by
  refine Nat.lt_of_not_le fun hle => ?_
  rw [children, node?_eq_none_of_le hle] at h
  cases h

/-- Adding a node either leaves a place as it was or fills an empty one with a bare node. -/
theorem node?_alloc_cases (t : Tree) (kind : Node.Kind) (n : NodeId) :
    (t.alloc kind).node? n = t.node? n ∨
      t.node? n = none ∧ (t.alloc kind).node? n = some { kind } := by
  rw [node?_alloc]
  split
  · rename_i h
    exact .inr ⟨node?_eq_none_of_le (Nat.le_of_eq h.symm), rfl⟩
  · exact .inl rfl

/-- A new node has no parent, and the other nodes keep theirs. -/
@[simp] theorem parent?_alloc (t : Tree) (kind : Node.Kind) (n : NodeId) :
    (t.alloc kind).parent? n = t.parent? n := by
  rcases node?_alloc_cases t kind n with h | ⟨hnone, h⟩ <;> simp [parent?, *]

/-- A new node has no children, and the other nodes keep theirs. -/
@[simp] theorem children_alloc (t : Tree) (kind : Node.Kind) (n : NodeId) :
    (t.alloc kind).children n = t.children n := by
  rcases node?_alloc_cases t kind n with h | ⟨hnone, h⟩ <;> simp [children, *]

/-- A new node has no neighbour after it, and the other nodes keep theirs. -/
@[simp] theorem next?_alloc (t : Tree) (kind : Node.Kind) (n : NodeId) :
    (t.alloc kind).next? n = t.next? n := by
  rcases node?_alloc_cases t kind n with h | ⟨hnone, h⟩ <;> simp [next?, *]

/-- A new node has no neighbour before it, and the other nodes keep theirs. -/
@[simp] theorem previous?_alloc (t : Tree) (kind : Node.Kind) (n : NodeId) :
    (t.alloc kind).previous? n = t.previous? n := by
  rcases node?_alloc_cases t kind n with h | ⟨hnone, h⟩ <;> simp [previous?, *]

/-- Attaching gives the child its new parent. -/
theorem parent?_attach {t : Tree} {child : NodeId} (hchild : child < t.size) (parent n : NodeId) :
    (t.attach parent child).parent? n = if n = child then some parent else t.parent? n := by
  rw [parent?, node?_attach]
  by_cases h : n = child
  · subst h
    obtain ⟨node, hnode⟩ := Option.isSome_iff_exists.mp (node?_isSome_iff.mpr hchild)
    simp [hnode]
  · cases hnode : t.node? n <;> simp [parent?, hnode, h]

/-- Attaching adds the child behind the other children of its new parent. -/
theorem children_attach {t : Tree} {parent : NodeId} (hparent : parent < t.size)
    (child n : NodeId) :
    (t.attach parent child).children n =
      if n = parent then t.children n ++ [child] else t.children n := by
  rw [children, node?_attach]
  by_cases h : n = parent
  · subst h
    obtain ⟨node, hnode⟩ := Option.isSome_iff_exists.mp (node?_isSome_iff.mpr hparent)
    simp [children, hnode]
  · cases hnode : t.node? n <;> simp [children, hnode, h]

/-- Attaching gives the former last child, if it is a node of the tree, a neighbour after it. -/
theorem next?_attach (t : Tree) (parent child n : NodeId) :
    (t.attach parent child).next? n =
      if (t.children parent).getLast? = some n ∧ n < t.size then some child else t.next? n := by
  rw [next?, node?_attach]
  by_cases hn : n < t.size
  · obtain ⟨node, hnode⟩ := Option.isSome_iff_exists.mp (node?_isSome_iff.mpr hn)
    by_cases h : (t.children parent).getLast? = some n <;> simp [next?, hnode, h, hn]
  · simp [next?, node?_eq_none_of_le (Nat.le_of_not_lt hn), hn]

/-- Attaching gives a child without a neighbour before it the former last child. -/
theorem previous?_attach {t : Tree} {child : NodeId} (hchild : child < t.size)
    (hprevious : t.previous? child = none) (parent n : NodeId) :
    (t.attach parent child).previous? n =
      if n = child then (t.children parent).getLast? else t.previous? n := by
  rw [previous?, node?_attach]
  by_cases h : n = child
  · subst h
    obtain ⟨node, hnode⟩ := Option.isSome_iff_exists.mp (node?_isSome_iff.mpr hchild)
    rw [previous?, hnode, Option.bind_some] at hprevious
    simp [hnode, hprevious]
  · cases hnode : t.node? n <;> simp [previous?, hnode, h]

/-! ### Agreement of the links -/

/-- A node is the parent of another. -/
def ParentOf (t : Tree) (p c : NodeId) : Prop := t.parent? c = some p

/-- The links that a tree stores agree with one another. -/
structure WellLinked (t : Tree) : Prop where
  /-- A node's parent is the node that lists it as a child. -/
  parent?_eq_some_iff : ∀ {p c : NodeId}, t.parent? c = some p ↔ c ∈ t.children p
  /-- No child is listed twice. -/
  nodup_children : ∀ p : NodeId, (t.children p).Nodup
  /-- The way up from a node ends. -/
  wellFounded : WellFounded t.ParentOf
  /-- The neighbour after a child is the child listed next. -/
  next?_of_children : ∀ {p n : NodeId} {before after : List NodeId},
    t.children p = before ++ n :: after → t.next? n = after.head?
  /-- The neighbour before a child is the child listed before it. -/
  previous?_of_children : ∀ {p n : NodeId} {before after : List NodeId},
    t.children p = before ++ n :: after → t.previous? n = before.getLast?
  /-- A node without a parent has no neighbours. -/
  detached : ∀ {n : NodeId}, t.parent? n = none → t.next? n = none ∧ t.previous? n = none

namespace WellLinked

variable {t : Tree}

/-- A child is in the tree. -/
theorem lt_size_of_mem (h : t.WellLinked) {p c : NodeId} (hc : c ∈ t.children p) :
    c < t.size :=
  lt_size_of_parent? (h.parent?_eq_some_iff.mpr hc)

/-- No node is a child of two nodes. -/
theorem parent_unique (h : t.WellLinked) {p q c : NodeId} (hp : c ∈ t.children p)
    (hq : c ∈ t.children q) : p = q := by
  have hp' := h.parent?_eq_some_iff.mpr hp
  rw [h.parent?_eq_some_iff.mpr hq] at hp'
  exact (Option.some.inj hp').symm

/-- Every link of a well-linked tree stays inside the tree. -/
theorem lt_size_of_link (h : t.WellLinked) {n m : NodeId}
    (hm : t.parent? n = some m ∨ m ∈ t.children n ∨ t.next? n = some m ∨ t.previous? n = some m) :
    m < t.size := by
  rcases hm with hm | hm | hm | hm
  · exact lt_size_of_mem_children (h.parent?_eq_some_iff.mp hm)
  · exact h.lt_size_of_mem hm
  all_goals
    -- a node with a neighbour has a parent, and the neighbour is listed by that parent too
    obtain ⟨p, hp⟩ : ∃ p, t.parent? n = some p := by
      refine Option.ne_none_iff_exists'.mp fun hnone => ?_
      have hdetached := h.detached hnone
      simp [hm] at hdetached
    obtain ⟨before, after, hsplit⟩ := List.append_of_mem (h.parent?_eq_some_iff.mp hp)
    refine h.lt_size_of_mem (p := p) ?_
    rw [hsplit]
  · rw [h.next?_of_children hsplit] at hm
    exact List.mem_append_right _ (List.mem_cons_of_mem _ (List.mem_of_mem_head? hm))
  · rw [h.previous?_of_children hsplit] at hm
    exact List.mem_append_left _ (List.mem_of_mem_getLast? hm)

end WellLinked

/-! ### Growing keeps the agreement -/

/-- The tree of the document alone is well linked: it stores no link. -/
theorem wellLinked_empty : WellLinked empty := by
  have hnode : ∀ {n node}, empty.node? n = some node → node = { kind := .document } := by
    intro n node h
    obtain rfl : n = 0 :=
      Nat.lt_one_iff.mp (node?_isSome_iff.mp (Option.isSome_iff_exists.mpr ⟨node, h⟩))
    exact (Option.some.inj h).symm
  have hparent : ∀ n, empty.parent? n = none := fun n => by
    cases h : empty.node? n with
    | none => simp [parent?, h]
    | some node => simp [parent?, h, hnode h]
  have hchildren : ∀ n, empty.children n = [] := fun n => by
    cases h : empty.node? n with
    | none => simp [children, h]
    | some node => simp [children, h, hnode h]
  refine ⟨?_, ?_, ⟨fun n => ⟨n, fun p hp => ?_⟩⟩, ?_, ?_, fun {n} _ => ?_⟩
  · simp [hparent, hchildren]
  · simp [hchildren]
  · rw [ParentOf, hparent] at hp
    cases hp
  · simp [hchildren]
  · simp [hchildren]
  · cases h : empty.node? n with
    | none => simp [next?, previous?, h]
    | some node => simp [next?, previous?, h, hnode h]

/-- A list with one more member at its end, cut at any member. -/
theorem append_singleton_eq_append_cons {l before after : List NodeId} {c n : NodeId} :
    l ++ [c] = before ++ n :: after ↔
      l = before ∧ n = c ∧ after = [] ∨ ∃ rest, after = rest ++ [c] ∧ l = before ++ n :: rest := by
  constructor
  · intro h
    rcases List.eq_nil_or_concat after with rfl | ⟨rest, last, rfl⟩
    · obtain ⟨hl, hc⟩ := List.append_inj' h rfl
      exact .inl ⟨hl, (List.singleton_inj.mp hc).symm, rfl⟩
    · rw [List.concat_eq_append, ← List.cons_append, ← List.append_assoc] at h
      obtain ⟨hl, hc⟩ := List.append_inj' h rfl
      exact .inr ⟨rest, by rw [List.concat_eq_append, List.singleton_inj.mp hc], hl⟩
  · rintro (⟨rfl, rfl, rfl⟩ | ⟨rest, rfl, rfl⟩)
    · rfl
    · simp

/-- A member of a list without repetition is its last exactly if nothing stands behind it. -/
theorem getLast?_append_cons_eq_some_iff {before rest : List NodeId} {n : NodeId}
    (h : (before ++ n :: rest).Nodup) :
    (before ++ n :: rest).getLast? = some n ↔ rest = [] := by
  constructor
  · intro hlast
    rcases List.eq_nil_or_concat rest with rfl | ⟨front, last, rfl⟩
    · rfl
    · rw [List.concat_eq_append, ← List.cons_append, ← List.append_assoc,
        List.getLast?_concat] at hlast
      obtain rfl := Option.some.inj hlast
      have hn := (List.nodup_cons.mp (List.nodup_append.mp h).2.1).1
      simp at hn
  · rintro rfl
    simp

namespace WellLinked

variable {t : Tree}

/-- Adding a detached node keeps the agreement. -/
theorem alloc (h : t.WellLinked) (kind : Node.Kind) : (t.alloc kind).WellLinked where
  parent?_eq_some_iff {p c} := by simpa using h.parent?_eq_some_iff
  nodup_children p := by simpa using h.nodup_children p
  wellFounded := by
    have hsame : (t.alloc kind).ParentOf = t.ParentOf := by
      funext p c
      simp [ParentOf]
    exact hsame ▸ h.wellFounded
  next?_of_children {p n before after} := by simpa using h.next?_of_children
  previous?_of_children {p n before after} := by simpa using h.previous?_of_children
  detached {n} := by simpa using h.detached

section Attach

variable {parent child : NodeId}

/-- After a node is attached the way up from each node still ends, provided that the node is not
on the way up from its new parent. -/
theorem wellFounded_attach (h : t.WellLinked) (hchild : child < t.size)
    (hfree : ¬ Relation.ReflTransGen t.ParentOf child parent) :
    WellFounded (t.attach parent child).ParentOf := by
  have hstep : ∀ {p n}, (t.attach parent child).ParentOf p n → n ≠ child → t.ParentOf p n := by
    intro p n hp hn
    rwa [ParentOf, parent?_attach hchild, if_neg hn] at hp
  -- a way up that does not meet the child has not changed
  have hfar : ∀ n, ¬ Relation.ReflTransGen t.ParentOf child n →
      Acc (t.attach parent child).ParentOf n := by
    intro n
    induction h.wellFounded.apply n with
    | intro n _ ih =>
        intro hn
        refine ⟨n, fun p hp => ?_⟩
        have hne : n ≠ child := by
          rintro rfl
          exact hn .refl
        exact ih p (hstep hp hne) fun hcp => hn (hcp.tail (hstep hp hne))
  have hacc : Acc (t.attach parent child).ParentOf child := by
    refine ⟨child, fun p hp => ?_⟩
    rw [ParentOf, parent?_attach hchild, if_pos rfl, Option.some.injEq] at hp
    exact hp ▸ hfar parent hfree
  refine ⟨fun n => ?_⟩
  induction h.wellFounded.apply n with
  | intro n _ ih =>
      by_cases hn : n = child
      · exact hn ▸ hacc
      · exact ⟨n, fun p hp => ih p (hstep hp hn)⟩

/-- A node without a parent is listed nowhere. -/
theorem not_mem_children (h : t.WellLinked) (hdetached : t.parent? child = none) (p : NodeId) :
    child ∉ t.children p := by
  intro hp
  rw [h.parent?_eq_some_iff.mpr hp] at hdetached
  cases hdetached

/-- After a node without a parent is attached, the neighbour after each child is the child listed
next. -/
theorem next?_attach_of_children (h : t.WellLinked) (hparent : parent < t.size)
    (hdetached : t.parent? child = none) {p n : NodeId} {before after : List NodeId}
    (hsplit : (t.attach parent child).children p = before ++ n :: after) :
    (t.attach parent child).next? n = after.head? := by
  rw [children_attach hparent] at hsplit
  rw [next?_attach]
  split at hsplit
  · rename_i hp
    subst hp
    rcases append_singleton_eq_append_cons.mp hsplit with ⟨-, rfl, rfl⟩ | ⟨rest, rfl, hl⟩
    · have hlast : (t.children p).getLast? ≠ some n := fun hlast =>
        h.not_mem_children hdetached p (List.mem_of_getLast? hlast)
      simp [hlast, (h.detached hdetached).1]
    · have hn : n < t.size := h.lt_size_of_mem (p := p) (by simp [hl])
      rw [h.next?_of_children hl, hl]
      simp only [getLast?_append_cons_eq_some_iff (hl ▸ h.nodup_children p), hn, and_true]
      cases rest <;> simp
  · rename_i hp
    have hlast : (t.children parent).getLast? ≠ some n := fun hlast =>
      hp (h.parent_unique (by simp [hsplit]) (List.mem_of_getLast? hlast))
    rw [if_neg fun hboth => hlast hboth.1]
    exact h.next?_of_children hsplit

/-- After a node without a parent is attached, the neighbour before each child is the child listed
before it. -/
theorem previous?_attach_of_children (h : t.WellLinked) (hparent : parent < t.size)
    (hchild : child < t.size) (hdetached : t.parent? child = none) {p n : NodeId}
    {before after : List NodeId}
    (hsplit : (t.attach parent child).children p = before ++ n :: after) :
    (t.attach parent child).previous? n = before.getLast? := by
  rw [children_attach hparent] at hsplit
  rw [previous?_attach hchild (h.detached hdetached).2]
  have hnot := h.not_mem_children hdetached p
  split at hsplit
  · rename_i hp
    subst hp
    rcases append_singleton_eq_append_cons.mp hsplit with ⟨rfl, rfl, -⟩ | ⟨rest, rfl, hl⟩
    · rw [if_pos rfl]
    · have hn : n ≠ child := by
        rintro rfl
        simp [hl] at hnot
      rw [if_neg hn, h.previous?_of_children hl]
  · have hn : n ≠ child := by
      rintro rfl
      simp [hsplit] at hnot
    rw [if_neg hn, h.previous?_of_children hsplit]

/-- Attaching a node that has no parent and is not on the way up from its new parent keeps the
agreement. -/
theorem attach (h : t.WellLinked) (hparent : parent < t.size) (hchild : child < t.size)
    (hdetached : t.parent? child = none)
    (hfree : ¬ Relation.ReflTransGen t.ParentOf child parent) :
    (t.attach parent child).WellLinked where
  parent?_eq_some_iff {p c} := by
    have hnot := h.not_mem_children hdetached
    rw [parent?_attach hchild, children_attach hparent]
    by_cases hc : c = child <;> by_cases hp : p = parent <;>
      simp [hc, hp, hnot, h.parent?_eq_some_iff, eq_comm (a := parent)]
  nodup_children p := by
    rw [children_attach hparent]
    split
    · refine List.nodup_append.mpr ⟨h.nodup_children p, by simp, fun a ha b hb => ?_⟩
      rintro rfl
      exact h.not_mem_children hdetached p (List.mem_singleton.mp hb ▸ ha)
    · exact h.nodup_children p
  wellFounded := h.wellFounded_attach hchild hfree
  next?_of_children := h.next?_attach_of_children hparent hdetached
  previous?_of_children := h.previous?_attach_of_children hparent hchild hdetached
  detached {n} hn := by
    rw [parent?_attach hchild] at hn
    split at hn
    · cases hn
    · rename_i hne
      rw [next?_attach, previous?_attach hchild (h.detached hdetached).2, if_neg hne]
      have hlast : (t.children parent).getLast? ≠ some n := fun hlast => by
        rw [h.parent?_eq_some_iff.mpr (List.mem_of_getLast? hlast)] at hn
        cases hn
      rw [if_neg fun hboth => hlast hboth.1]
      exact h.detached hn

end Attach

/-- Appending a new node below a node of the tree keeps the agreement. -/
theorem append (h : t.WellLinked) {parent : NodeId} (hparent : parent < t.size)
    (kind : Node.Kind) : (t.append parent kind).WellLinked := by
  have hnone : t.parent? t.size = none := by
    rw [parent?, node?_eq_none_of_le (Nat.le_refl _)]
    rfl
  refine (h.alloc kind).attach (size_alloc t kind ▸ Nat.lt_succ_of_lt hparent)
    (size_alloc t kind ▸ Nat.lt_succ_self _) (by rw [parent?_alloc, hnone]) fun hup => ?_
  -- the new node is nobody's parent, so the way down from it is empty
  rcases Relation.ReflTransGen.cases_head hup with heq | ⟨c, hc, -⟩
  · exact absurd heq (Nat.ne_of_gt hparent)
  · rw [ParentOf, parent?_alloc, h.parent?_eq_some_iff] at hc
    exact absurd (lt_size_of_mem_children hc) (Nat.lt_irrefl _)

mutual

/-- Grafting a node with everything below it keeps the agreement. -/
theorem graft {t : Tree} (h : t.WellLinked) {parent : NodeId} (hparent : parent < t.size) :
    ∀ node : DocumentNode, (t.graft parent node).WellLinked
  | .element tag attributes children => by
      rw [Tree.graft]
      exact (h.append hparent _).graftAll (size_append t _ _ ▸ Nat.lt_succ_self _) children
  | .text text => by
      rw [Tree.graft]
      exact h.append hparent _
  | .comment text => by
      rw [Tree.graft]
      exact h.append hparent _

/-- Grafting several nodes keeps the agreement. -/
theorem graftAll {t : Tree} (h : t.WellLinked) {parent : NodeId} (hparent : parent < t.size) :
    ∀ nodes : List DocumentNode, (t.graftAll parent nodes).WellLinked
  | [] => by
      rw [Tree.graftAll]
      exact h
  | node :: rest => by
      rw [Tree.graftAll]
      refine (h.graft hparent node).graftAll ?_ rest
      exact size_graft t parent node ▸ Nat.lt_add_right _ hparent

end

end WellLinked

end TreeSelect.Tree
