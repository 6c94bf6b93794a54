import TreeSelect.Proofs.Tree.Preorder
import TreeSelect.Proofs.Tree.Siblings
import TreeSelect.View
/-!
# Walking down and climbing up

Both walks down a tree, its own and the one that scans, are runs of one loop, which takes a node
from a stack and puts the node's children in its place. The way up has no stack: it follows one
stored parent after the other.

Nothing in the loop says that it ends, and it never looks at a parent. In a well-linked tree every
step takes one node off what is still ahead, which is the subtrees of the nodes on the stack; so the
loop ends, and it has met these subtrees one after the other. What it meets below a node is then
what the way up leads to that node from.

## Main definitions

* `Source.Pops`: the nodes that are met while a stack is emptied.

## Main statements

* `Tree.WellLinked.pops_iff`: what the loop meets, and that it ends.
* `Tree.WellLinked.leads_parent?`: the way up is followed to its end.
* `Tree.Built.walks_agree`: **walking down and climbing up agree.**
-/

namespace TreeSelect

/-- Emptying a stack of nodes meets the given nodes in their order: the uppermost node is met, and
its children take its place. -/
inductive Source.Pops {ν : Type} (s : Source ν) : List ν → List ν → Prop
  /-- The stack is empty. -/
  | done : Pops s [] []
  /-- The uppermost node is met. -/
  | pop {n : ν} {stack met : List ν} :
      Pops s (s.children n ++ stack) met → Pops s (n :: stack) (n :: met)

namespace Tree

variable {t : Tree}

/-! ### Walking down -/

/-- Walking down by scanning is walking down with a count that is larger by one. -/
theorem subtreeWithin_source (t : Tree) (bound : Nat) (n : NodeId) :
    t.source.subtreeWithin bound n = t.subtreeWithin (bound + 1) n := by
  induction bound generalizing n with
  | zero => simp [Source.subtreeWithin, subtreeWithin]
  | succ bound ih =>
      rw [Source.subtreeWithin, subtreeWithin]
      congr 1
      exact List.flatMap_congr fun c _ => ih c

/-- Scanning meets the subtree of a node. -/
theorem subtree_source_view (t : Tree) (n : NodeId) : t.source.view.subtree n = t.subtree n :=
  subtreeWithin_source t t.size n

/-- However a tree is looked at, it shows the same subtree. -/
theorem subtree_viewBy (t : Tree) (lookup : Lookup) (n : NodeId) :
    (t.viewBy lookup).subtree n = t.subtree n := by
  cases lookup with
  | own => rfl
  | scanning => exact subtree_source_view t n

namespace WellLinked

/-- The subtrees of a stack are its uppermost node and the subtrees of the stack behind it. -/
theorem flatMap_subtree_cons (h : t.WellLinked) (n : NodeId) (stack : List NodeId) :
    (n :: stack).flatMap t.subtree = n :: (t.children n ++ stack).flatMap t.subtree := by
  rw [List.flatMap_cons, h.subtree_eq, List.flatMap_append, List.cons_append]

/-- Emptying a stack meets the subtrees of its nodes. -/
theorem pops_flatMap_subtree (h : t.WellLinked) (stack : List NodeId) :
    t.source.Pops stack (stack.flatMap t.subtree) := by
  -- a step meets one node, so the nodes that are still to be met become fewer
  induction hlength : (stack.flatMap t.subtree).length using Nat.strongRecOn
    generalizing stack with
  | ind length ih =>
      cases stack with
      | nil => exact .done
      | cons n stack =>
          rw [h.flatMap_subtree_cons] at hlength ⊢
          exact .pop (ih _ (hlength ▸ Nat.lt_succ_self _) _ rfl)

/-- **The loop ends, and it meets the subtrees of the nodes on its stack.** -/
theorem pops_iff (h : t.WellLinked) {stack met : List NodeId} :
    t.source.Pops stack met ↔ met = stack.flatMap t.subtree := by
  constructor
  · intro hpops
    induction hpops with
    | done => rfl
    | pop _ ih =>
        rw [h.flatMap_subtree_cons, ih]
        rfl
  · rintro rfl
    exact h.pops_flatMap_subtree stack

/-- Emptying the stack of a node's children meets what is below the node. -/
theorem pops_children_iff (h : t.WellLinked) {n : NodeId} {met : List NodeId} :
    t.source.Pops (t.children n) met ↔ met = t.descendants n := by
  rw [h.pops_iff, h.descendants_eq]

/-- No node is met twice below another. -/
theorem nodup_descendants (h : t.WellLinked) (n : NodeId) : (t.descendants n).Nodup := by
  rw [h.descendants_eq]
  exact h.nodup_flatMap_children n

/-- The subtree of a node below another is one block of what is below the other. -/
theorem subtree_infix_descendants (h : t.WellLinked) {n a : NodeId} (hn : t.Above a n) :
    t.subtree n <:+: t.descendants a := by
  obtain ⟨c, hc, hbelow⟩ := Relation.TransGen.head'_iff.mp hn
  have hblock : t.subtree c <:+: (t.children a).flatMap t.subtree :=
    List.infix_flatMap_of_mem (h.parent?_eq_some_iff.mp hc) t.subtree
  rw [h.descendants_eq]
  exact (h.subtree_infix hbelow).trans hblock

/-! ### Climbing up -/

/-- The stored parents lead from a node through its ancestors, and end there. -/
theorem leads_parent? (h : t.WellLinked) (n : NodeId) : Leads t.parent? n (t.ancestors n) := by
  induction h.wellFounded.apply n with
  | intro n _ ih =>
      cases hp : t.parent? n with
      | none =>
          rw [ancestors_of_parent?_eq_none hp]
          exact hp
      | some p =>
          rw [h.ancestors_of_parent? hp]
          exact ⟨hp, ih p hp⟩

end WellLinked

/-! ### Both ways -/

/-- **Walking down and climbing up agree.** In every grown tree the loop that starts with the
children of a node ends, and it meets the node's descendants: each child and then what is below it,
child by child, and no node twice. These are exactly the nodes from which the stored parents,
followed to their end, lead through the node. And of each of them, with everything below it, they
hold one block, however the tree is looked at. -/
theorem Built.walks_agree (h : t.Built) (n : NodeId) :
    (∀ met, t.source.Pops (t.children n) met ↔ met = t.descendants n) ∧
    t.descendants n = (t.children n).flatMap (fun c => c :: t.descendants c) ∧
    (t.descendants n).Nodup ∧
    (∀ m, Leads t.parent? m (t.ancestors m)) ∧
    (∀ m, m ∈ t.descendants n ↔ n ∈ t.ancestors m) ∧
    (∀ m, m ∈ t.descendants n ↔ t.isDescendantOf m n = true) ∧
    (∀ m ∈ t.descendants n, ∀ lookup,
      (t.viewBy lookup).subtree m = m :: t.descendants m ∧
        (t.viewBy lookup).subtree m <:+: t.descendants n) := by
  have hw := h.wellLinked
  refine ⟨fun met => hw.pops_children_iff, hw.descendants_eq n, hw.nodup_descendants n,
    hw.leads_parent?, fun m => ?_, fun m => ?_, fun m hm lookup => ?_⟩
  · rw [hw.mem_descendants_iff, hw.mem_ancestors_iff]
  · rw [hw.mem_descendants_iff, hw.isDescendantOf_iff]
  · rw [subtree_viewBy]
    exact ⟨rfl, hw.subtree_infix_descendants (hw.mem_descendants_iff.mp hm)⟩

/-- A branch that was grown before it was attached, behind a comment: the places of the nodes are
not in document order. -/
def lateBranch : Tree :=
  (((((empty.alloc (.element ⟨['u', 'l'], .empty⟩)).append 1
    (.element ⟨['l', 'i'], .empty⟩)).append 1 (.element ⟨['l', 'i'], .empty⟩)).append 2
      (.text ['x'])).append 0 (.comment ['-'])).attach 0 1

/-- The late branch was attached as it may be. -/
theorem built_lateBranch : lateBranch.Built := by
  refine .attach (.append _ (.append _ (.append _ (.append _ (.alloc _ .empty) ?_) ?_) ?_) ?_)
    ?_ ?_ ?_ ?_ ?_ ?_
  all_goals decide

/-- Below the document stand the comment and the branch, which is one block, and in it an item with
its text. -/
theorem walks_agree_lateBranch :
    lateBranch.Built ∧ lateBranch.descendants 0 = [5, 1, 2, 4, 3] ∧
      lateBranch.source.Pops (lateBranch.children 0) [5, 1, 2, 4, 3] ∧
      lateBranch.isDescendantOf 4 1 = true ∧
      (lateBranch.viewBy .scanning).subtree 2 <:+: lateBranch.descendants 1 := by
  have hall : lateBranch.descendants 0 = [5, 1, 2, 4, 3] := by decide
  obtain ⟨hloop, -⟩ := built_lateBranch.walks_agree 0
  obtain ⟨-, -, -, -, -, hbelow, hblock⟩ := built_lateBranch.walks_agree 1
  exact ⟨built_lateBranch, hall, (hloop _).mpr hall.symm, (hbelow 4).mp (by decide),
    (hblock 2 (by decide) .scanning).2⟩

end Tree

end TreeSelect
