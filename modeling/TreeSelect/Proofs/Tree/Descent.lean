import Mathlib.Data.List.Perm.Subperm
import Mathlib.Order.WellFounded
import TreeSelect.Proofs.Tree.Links
/-!
# Walks up and down a well-linked tree

`Tree.ancestors` and `Tree.subtree` count down from the size of the tree. In a well-linked tree
neither count is ever used up: the way up meets no node twice, so it has fewer steps than there
are nodes, and no way down is longer than a way up. Each walk therefore satisfies the equation
that its definition would have without the count, and from there on the count is not mentioned.

## Main definitions

* `Tree.Above`: one node lies strictly above another.
* `Tree.AtOrBelow`: one node lies in the subtree of another.

## Main statements

* `WellLinked.ancestors_of_parent?`, `WellLinked.subtree_eq`: the walks without their counts.
* `WellLinked.mem_ancestors_iff`, `WellLinked.mem_subtree_iff`, `WellLinked.mem_descendants_iff`:
  what the walks meet.
-/

namespace TreeSelect.Tree

/-- A node lies strictly above another: the way up from the other leads to it. -/
def Above (t : Tree) : NodeId → NodeId → Prop :=
  Relation.TransGen t.ParentOf

/-- A node is another or lies below it. -/
def AtOrBelow (t : Tree) (n scope : NodeId) : Prop :=
  Relation.ReflTransGen t.ParentOf scope n

/-- Different numbers below a bound are no more than the bound. -/
theorem length_le_of_nodup_of_lt {l : List NodeId} {bound : NodeId} (h : l.Nodup)
    (hlt : ∀ n ∈ l, n < bound) : l.length ≤ bound := by
  have hsub : l ⊆ List.range bound := fun n hn => List.mem_range.mpr (hlt n hn)
  simpa using (List.subperm_of_subset h hsub).length_le

/-- What the way up from a node meets lies above the node. -/
theorem above_of_mem_ancestorsWithin {t : Tree} {bound : Nat} {a n : NodeId}
    (h : a ∈ t.ancestorsWithin bound n) : t.Above a n := by
  induction bound generalizing n with
  | zero => cases h
  | succ bound ih =>
      rw [ancestorsWithin] at h
      cases hp : t.parent? n with
      | none =>
          rw [hp] at h
          cases h
      | some p =>
          rw [hp] at h
          rcases List.mem_cons.mp h with rfl | h
          · exact .single hp
          · exact (ih h).tail hp

/-- A way up that ends before its bound goes no further with a larger one. -/
theorem ancestorsWithin_succ_of_length_lt {t : Tree} {bound : Nat} {n : NodeId}
    (h : (t.ancestorsWithin bound n).length < bound) :
    t.ancestorsWithin (bound + 1) n = t.ancestorsWithin bound n := by
  induction bound generalizing n with
  | zero => cases h
  | succ bound ih =>
      cases hp : t.parent? n with
      | none => simp only [ancestorsWithin, hp]
      | some p =>
          simp only [ancestorsWithin, hp, List.length_cons] at h
          have hrest := ih (Nat.lt_of_succ_lt_succ h)
          rw [ancestorsWithin] at hrest
          rw [ancestorsWithin, hp, ancestorsWithin, hp]
          exact congrArg (p :: ·) hrest

namespace WellLinked

variable {t : Tree}

/-- No node lies above itself. -/
theorem not_above_self (h : t.WellLinked) (n : NodeId) : ¬ t.Above n n :=
  (WellFounded.transGen h.wellFounded).irrefl.irrefl n

/-- What lies above a node is in the tree. -/
theorem lt_size_of_above (h : t.WellLinked) {a n : NodeId} (ha : t.Above a n) : a < t.size := by
  induction ha with
  | single hp => exact h.lt_size_of_link (.inl hp)
  | tail _ _ ih => exact ih

/-- The way up from a node meets no node twice. -/
theorem nodup_cons_ancestorsWithin (h : t.WellLinked) (bound : Nat) (n : NodeId) :
    (n :: t.ancestorsWithin bound n).Nodup := by
  refine List.nodup_cons.mpr
    ⟨fun hn => h.not_above_self n (above_of_mem_ancestorsWithin hn), ?_⟩
  induction bound generalizing n with
  | zero => exact List.nodup_nil
  | succ bound ih =>
      rw [ancestorsWithin]
      cases t.parent? n with
      | none => exact List.nodup_nil
      | some p =>
          exact List.nodup_cons.mpr
            ⟨fun hp => h.not_above_self p (above_of_mem_ancestorsWithin hp), ih p⟩

/-- The way up from a node of the tree has fewer steps than the tree has nodes. -/
theorem length_ancestorsWithin_lt (h : t.WellLinked) (bound : Nat) {n : NodeId}
    (hn : n < t.size) : (t.ancestorsWithin bound n).length < t.size := by
  refine length_le_of_nodup_of_lt (h.nodup_cons_ancestorsWithin bound n) fun m hm => ?_
  rcases List.mem_cons.mp hm with rfl | hm
  · exact hn
  · exact h.lt_size_of_above (above_of_mem_ancestorsWithin hm)

/-- Above a node without a parent there is nothing. -/
theorem ancestors_of_parent?_eq_none {n : NodeId} (hp : t.parent? n = none) :
    t.ancestors n = [] := by
  rw [ancestors]
  cases t.size <;> simp [ancestorsWithin, hp]

/-- Above a node are its parent and what is above the parent. -/
theorem ancestors_of_parent? (h : t.WellLinked) {n p : NodeId} (hp : t.parent? n = some p) :
    t.ancestors n = p :: t.ancestors p := by
  have hsize : t.ancestorsWithin (t.size + 1) n = t.ancestors n :=
    ancestorsWithin_succ_of_length_lt (h.length_ancestorsWithin_lt _ (lt_size_of_parent? hp))
  rw [← hsize, ancestorsWithin, hp]
  rfl

/-- The ancestors of a node are what lies above it. -/
theorem mem_ancestors_iff (h : t.WellLinked) {a n : NodeId} :
    a ∈ t.ancestors n ↔ t.Above a n := by
  refine ⟨above_of_mem_ancestorsWithin, fun ha => ?_⟩
  induction ha with
  | single hp => simp [h.ancestors_of_parent? hp]
  | tail _ hp ih => simp [h.ancestors_of_parent? hp, ih]

/-- One node lies strictly below another exactly if the other lies above it. -/
theorem isDescendantOf_iff (h : t.WellLinked) {n a : NodeId} :
    t.isDescendantOf n a = true ↔ t.Above a n := by
  rw [isDescendantOf, List.contains_iff_mem, h.mem_ancestors_iff]

/-- The topmost node that a way up meets has no parent: no way up is cut short. -/
theorem parent?_getLast_ancestors (h : t.WellLinked) (n : NodeId) :
    t.parent? ((n :: t.ancestors n).getLast (by simp)) = none := by
  induction h.wellFounded.apply n with
  | intro n _ ih =>
      cases hp : t.parent? n with
      | none => simp [ancestors_of_parent?_eq_none hp, hp]
      | some p =>
          simp only [h.ancestors_of_parent? hp, List.getLast_cons_cons]
          exact ih p hp

/-- Counting down from the missing part of the way up, or from more, the walk down is never
cut short. -/
theorem subtreeWithin_succ (h : t.WellLinked) {bound : Nat} {n : NodeId} (hn : n < t.size)
    (hbound : t.size ≤ (t.ancestors n).length + bound) :
    t.subtreeWithin (bound + 1) n = t.subtreeWithin bound n := by
  induction bound generalizing n with
  | zero =>
      have hlength := h.length_ancestorsWithin_lt t.size hn
      exact absurd hbound (Nat.not_le_of_gt hlength)
  | succ bound ih =>
      rw [subtreeWithin, subtreeWithin]
      congr 1
      refine List.flatMap_congr fun c hc => ih (h.lt_size_of_mem hc) ?_
      rw [h.ancestors_of_parent? (h.parent?_eq_some_iff.mpr hc), List.length_cons]
      omega

/-- A subtree is its topmost node and then the subtrees of that node's children. -/
theorem subtree_eq (h : t.WellLinked) (n : NodeId) :
    t.subtree n = n :: (t.children n).flatMap t.subtree := by
  rw [subtree, descendants]
  congr 1
  refine List.flatMap_congr fun c hc => ?_
  exact (h.subtreeWithin_succ (h.lt_size_of_mem hc) (Nat.le_add_left _ _)).symm

/-- What the walk down from a node meets lies at or below it. -/
theorem atOrBelow_of_mem_subtreeWithin (h : t.WellLinked) {bound : Nat} {n scope : NodeId}
    (hn : n ∈ t.subtreeWithin bound scope) : t.AtOrBelow n scope := by
  induction bound generalizing scope with
  | zero => cases hn
  | succ bound ih =>
      rcases List.mem_cons.mp hn with rfl | hn
      · exact .refl
      · obtain ⟨c, hc, hn⟩ := List.mem_flatMap.mp hn
        exact Relation.ReflTransGen.head (h.parent?_eq_some_iff.mpr hc) (ih hn)

/-- The subtree of a node is what lies at or below it. -/
theorem mem_subtree_iff (h : t.WellLinked) {n scope : NodeId} :
    n ∈ t.subtree scope ↔ t.AtOrBelow n scope := by
  constructor
  · intro hn
    -- the subtree is the walk down with one step more than the tree has nodes
    have hwalk : n ∈ t.subtreeWithin (t.size + 1) scope := hn
    exact h.atOrBelow_of_mem_subtreeWithin hwalk
  · intro hn
    induction hn using Relation.ReflTransGen.head_induction_on with
    | refl => exact List.mem_cons_self
    | head hp _ ih =>
        rw [h.subtree_eq]
        exact List.mem_cons_of_mem _
          (List.mem_flatMap.mpr ⟨_, h.parent?_eq_some_iff.mp hp, ih⟩)

/-- What is below a node are the subtrees of its children. -/
theorem descendants_eq (h : t.WellLinked) (n : NodeId) :
    t.descendants n = (t.children n).flatMap t.subtree := by
  have hsubtree := h.subtree_eq n
  rw [subtree, List.cons.injEq] at hsubtree
  exact hsubtree.2

/-- The descendants of a node are what it lies above. -/
theorem mem_descendants_iff (h : t.WellLinked) {n a : NodeId} :
    n ∈ t.descendants a ↔ t.Above a n := by
  rw [h.descendants_eq, List.mem_flatMap, Above, Relation.TransGen.head'_iff]
  refine exists_congr fun c => ?_
  rw [h.mem_subtree_iff, AtOrBelow, ParentOf, h.parent?_eq_some_iff]

end WellLinked

end TreeSelect.Tree
