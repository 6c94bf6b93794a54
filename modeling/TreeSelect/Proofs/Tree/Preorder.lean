import Mathlib.Data.List.Nodup
import TreeSelect.Proofs.Tree.Descent
/-!
# Document order

The subtree of a node is listed in document order. In a well-linked tree that list has no
repetition, so each node of it has one place, and a list that keeps its order can be described by
places that increase.

Proofs about everything below a node go by induction from the children to the node: going down
ends because the subtrees become shorter.

Every node of a well-linked tree hangs below one topmost node, which is the document or a node that
was never attached. Two nodes below one topmost node are the same, or one is above the other, or the
ways down to them part between two children of one node. In the last two cases the walk in document
order meets one of them first: the upper one, or the one below the child that is listed first.

## Main definitions

* `Tree.Reachable`: a node is the root or lies below it.
* `Tree.Parted`: two nodes are below two children of one node.
* `Tree.Together`, `Tree.Ahead`: two nodes of one tree, and which of them is met first.

## Main statements

* `WellLinked.children_induction`: what holds of a node whenever it holds of its children holds of
  every node.
* `WellLinked.nodup_subtree`: no node is listed twice.
* `WellLinked.subtree_infix`: the subtrees of the nodes in a subtree are blocks of it.
* `WellLinked.pairwise_of_sublist_subtree`: lists that keep document order.
* `WellLinked.idxOf_subtree`: places in a subtree add up along the way down.
* `WellLinked.exists_top`, `Tree.eq_of_tops`: each node has one topmost node.
* `WellLinked.related_cases`: how two nodes of one tree can stand to each other.
* `WellLinked.ahead_asymm`, `WellLinked.ahead_or_ahead`: one of them is met first, and only one.
-/

namespace TreeSelect

namespace Tree

/-- In a list without repetition the place of a member is the number of members before it. -/
theorem pairwise_idxOf {α : Type} [DecidableEq α] {l : List α} (h : l.Nodup) :
    l.Pairwise fun a b => l.idxOf a < l.idxOf b := by
  refine List.pairwise_iff_getElem.mpr fun i j hi hj hij => ?_
  rw [h.idxOf_getElem i hi, h.idxOf_getElem j hj]
  exact hij

/-- Of two nodes that a third lies at or below, one lies at or below the other. -/
theorem atOrBelow_total {t : Tree} {n a b : NodeId} (ha : t.AtOrBelow n a)
    (hb : t.AtOrBelow n b) : t.AtOrBelow a b ∨ t.AtOrBelow b a := by
  -- the way up from the third meets both
  have hunique : Relator.RightUnique (Function.swap t.ParentOf) := by
    intro c p q hp hq
    exact Option.some.inj (Eq.trans (Eq.symm hp) hq)
  exact (Relation.ReflTransGen.total_of_right_unique hunique
    (Relation.reflTransGen_swap.mpr ha) (Relation.reflTransGen_swap.mpr hb)).imp
      Relation.reflTransGen_swap.mp Relation.reflTransGen_swap.mp

/-- A node is in its own subtree. -/
theorem mem_subtree_self (t : Tree) (n : NodeId) : n ∈ t.subtree n :=
  List.mem_cons_self

/-- A row of subtrees starts with the topmost node of the first. -/
theorem idxOf_flatMap_subtree_head (t : Tree) (c : NodeId) (rest : List NodeId) :
    ((c :: rest).flatMap t.subtree).idxOf c = 0 := by
  rw [List.flatMap_cons, subtree, List.cons_append, List.idxOf_cons_self]

/-- In a row of subtrees the others stand behind the first. -/
theorem idxOf_flatMap_subtree_tail {t : Tree} {c n : NodeId} {rest : List NodeId}
    (hnodup : ((c :: rest).flatMap t.subtree).Nodup) (hn : n ∈ rest.flatMap t.subtree) :
    ((c :: rest).flatMap t.subtree).idxOf n =
      (t.subtree c).length + (rest.flatMap t.subtree).idxOf n := by
  rw [List.flatMap_cons] at hnodup ⊢
  have hnc : n ∉ t.subtree c := fun hc => (List.nodup_append.mp hnodup).2.2 n hc n hn rfl
  rw [List.idxOf_append_of_notMem hnc, Nat.add_comm]

/-- In a row of subtrees a node stands as far behind the topmost node of its subtree as it does in
that subtree. -/
theorem idxOf_flatMap_subtree {t : Tree} {l : List NodeId} (hnodup : (l.flatMap t.subtree).Nodup)
    {c n : NodeId} (hc : c ∈ l) (hn : n ∈ t.subtree c) :
    (l.flatMap t.subtree).idxOf n =
      (l.flatMap t.subtree).idxOf c + (t.subtree c).idxOf n := by
  induction l with
  | nil => cases hc
  | cons d rest ih =>
      rcases List.mem_cons.mp hc with rfl | hc
      · rw [idxOf_flatMap_subtree_head, List.flatMap_cons, List.idxOf_append_of_mem hn,
          Nat.zero_add]
      · have hrest := (List.nodup_append.mp (List.flatMap_cons ▸ hnodup)).2.1
        have hself := List.mem_flatMap.mpr ⟨c, hc, t.mem_subtree_self c⟩
        rw [idxOf_flatMap_subtree_tail hnodup (List.mem_flatMap.mpr ⟨c, hc, hn⟩),
          idxOf_flatMap_subtree_tail hnodup hself, ih hrest hc]
        omega

namespace WellLinked

variable {t : Tree}

/-- The subtree of a child is shorter. -/
theorem length_subtree_lt (h : t.WellLinked) {n c : NodeId} (hc : c ∈ t.children n) :
    (t.subtree c).length < (t.subtree n).length := by
  obtain ⟨before, after, hsplit⟩ := List.append_of_mem hc
  rw [h.subtree_eq n, hsplit]
  simp only [List.length_cons, List.flatMap_append, List.flatMap_cons, List.length_append]
  omega

/-- Going down ends: what holds of a node whenever it holds of its children holds of every node. -/
theorem children_induction (h : t.WellLinked) {motive : NodeId → Prop}
    (step : ∀ n, (∀ c ∈ t.children n, motive c) → motive n) (n : NodeId) : motive n := by
  induction hlength : (t.subtree n).length using Nat.strongRecOn generalizing n with
  | ind length ih =>
      exact step n fun c hc => ih _ (hlength ▸ h.length_subtree_lt hc) c rfl

/-- No node lies at or below two children of one node. -/
theorem eq_of_atOrBelow_children (h : t.WellLinked) {p c d n : NodeId} (hc : c ∈ t.children p)
    (hd : d ∈ t.children p) (hnc : t.AtOrBelow n c) (hnd : t.AtOrBelow n d) : c = d := by
  -- a child of the node that lies strictly below another would put the node below itself
  have hside : ∀ {c d}, c ∈ t.children p → d ∈ t.children p → t.AtOrBelow c d → c = d := by
    intro c d hc hd hbelow
    rcases Relation.ReflTransGen.cases_tail hbelow with heq | ⟨q, hq, hqc⟩
    · exact heq
    · obtain rfl : q = p := h.parent_unique (h.parent?_eq_some_iff.mp hqc) hc
      have hqd : t.ParentOf q d := h.parent?_eq_some_iff.mpr hd
      have hself : t.Above q q := Relation.TransGen.head' hqd hq
      exact absurd hself (h.not_above_self q)
  rcases atOrBelow_total hnc hnd with hbelow | hbelow
  · exact hside hc hd hbelow
  · exact (hside hd hc hbelow).symm

/-- **No node is listed twice in a subtree.** -/
theorem nodup_subtree (h : t.WellLinked) (n : NodeId) : (t.subtree n).Nodup := by
  induction n using h.children_induction with
  | step n ih =>
      rw [h.subtree_eq]
      refine List.nodup_cons.mpr ⟨fun hn => ?_, ?_⟩
      · obtain ⟨c, hc, hn⟩ := List.mem_flatMap.mp hn
        have hnc : t.ParentOf n c := h.parent?_eq_some_iff.mpr hc
        have hself : t.Above n n := Relation.TransGen.head' hnc (h.mem_subtree_iff.mp hn)
        exact h.not_above_self n hself
      · refine List.nodup_flatMap.mpr ⟨ih, ?_⟩
        refine (h.nodup_children n).pairwise_of_forall_ne fun c hc d hd hne => ?_
        intro m hmc hmd
        exact hne (h.eq_of_atOrBelow_children hc hd (h.mem_subtree_iff.mp hmc)
          (h.mem_subtree_iff.mp hmd))

/-- No node is listed twice in the row of the subtrees of a node's children. -/
theorem nodup_flatMap_children (h : t.WellLinked) (n : NodeId) :
    ((t.children n).flatMap t.subtree).Nodup := by
  have hnodup := h.nodup_subtree n
  rw [h.subtree_eq] at hnodup
  exact (List.nodup_cons.mp hnodup).2

/-- The subtree of a node at or below another is one block of the other's subtree. -/
theorem subtree_infix (h : t.WellLinked) {n scope : NodeId} (hn : t.AtOrBelow n scope) :
    t.subtree n <:+: t.subtree scope := by
  induction hn using Relation.ReflTransGen.head_induction_on with
  | refl => exact List.infix_refl _
  | @head scope c hc _ ih =>
      have hblock : t.subtree c <:+: (t.children scope).flatMap t.subtree :=
        List.infix_flatMap_of_mem (h.parent?_eq_some_iff.mp hc) t.subtree
      rw [h.subtree_eq scope]
      exact List.infix_cons (ih.trans hblock)

/-- The walk through a subtree goes, in the same order, through the subtree of each node in it. -/
theorem subtree_sublist (h : t.WellLinked) {n scope : NodeId} (hn : t.AtOrBelow n scope) :
    (t.subtree n).Sublist (t.subtree scope) :=
  (h.subtree_infix hn).sublist

/-- A list that keeps the order of a subtree goes strictly forward in it. -/
theorem pairwise_of_sublist_subtree (h : t.WellLinked) {scope : NodeId} {l : List NodeId}
    (hl : l.Sublist (t.subtree scope)) :
    l.Pairwise fun a b => (t.subtree scope).idxOf a < (t.subtree scope).idxOf b :=
  (pairwise_idxOf (h.nodup_subtree scope)).sublist hl

/-! ### Places in document order -/

/-- The subtrees of its children stand behind a node. -/
theorem idxOf_of_mem_children (h : t.WellLinked) {n c m : NodeId} (hc : c ∈ t.children n)
    (hm : m ∈ t.subtree c) :
    (t.subtree n).idxOf m = ((t.children n).flatMap t.subtree).idxOf m + 1 := by
  have hne : n ≠ m := by
    rintro rfl
    have hnc : t.ParentOf n c := h.parent?_eq_some_iff.mpr hc
    have hself : t.Above n n := Relation.TransGen.head' hnc (h.mem_subtree_iff.mp hm)
    exact h.not_above_self n hself
  rw [h.subtree_eq, List.idxOf_cons_ne _ hne]

/-- **Places add up**: in a subtree a node stands as far behind another that it lies at or below as
it does in the other's subtree. -/
theorem idxOf_subtree (h : t.WellLinked) {n c m : NodeId} (hc : t.AtOrBelow c n)
    (hm : m ∈ t.subtree c) :
    (t.subtree n).idxOf m = (t.subtree n).idxOf c + (t.subtree c).idxOf m := by
  induction hc using Relation.ReflTransGen.head_induction_on with
  | refl => rw [subtree, List.idxOf_cons_self, Nat.zero_add]
  | @head n d hd hc ih =>
      have hchild : d ∈ t.children n := h.parent?_eq_some_iff.mp hd
      have hcd : c ∈ t.subtree d := h.mem_subtree_iff.mpr hc
      have hmd : m ∈ t.subtree d := h.mem_subtree_iff.mpr (hc.trans (h.mem_subtree_iff.mp hm))
      have hrow := h.nodup_flatMap_children n
      rw [h.idxOf_of_mem_children hchild hcd, h.idxOf_of_mem_children hchild hmd,
        idxOf_flatMap_subtree hrow hchild hcd, idxOf_flatMap_subtree hrow hchild hmd, ih]
      omega

end WellLinked

/-! ### What the root leads to -/

/-- A node is the root or lies below it. -/
def Reachable (t : Tree) (n : NodeId) : Prop :=
  t.AtOrBelow n NodeId.root

/-- A child of a reachable node is reachable. -/
theorem Reachable.child {t : Tree} (ht : t.WellLinked) {n c : NodeId} (hn : t.Reachable n)
    (hc : c ∈ t.children n) : t.Reachable c :=
  Relation.ReflTransGen.tail hn (ht.parent?_eq_some_iff.mpr hc)

/-- What is listed in the subtree of a reachable node is reachable. -/
theorem Reachable.of_sublist {t : Tree} (ht : t.WellLinked) {scope : NodeId}
    (hscope : t.Reachable scope) {l : List NodeId} (hl : l.Sublist (t.subtree scope)) {n : NodeId}
    (hn : n ∈ l) : t.Reachable n :=
  Relation.ReflTransGen.trans hscope (ht.mem_subtree_iff.mp (hl.subset hn))

variable {t : Tree}

/-! ### Topmost nodes -/

/-- Whatever a node is below, is at or below the topmost node above it. -/
theorem atOrBelow_of_top {top n m : NodeId} (htop : t.parent? top = none)
    (hn : t.AtOrBelow n top) (hm : t.AtOrBelow n m) : t.AtOrBelow m top := by
  rcases atOrBelow_total hn hm with hup | hdown
  · rcases Relation.ReflTransGen.cases_tail hup with heq | ⟨p, -, hp⟩
    · exact heq ▸ .refl
    · rw [ParentOf, htop] at hp
      cases hp
  · exact hdown

/-- A node is below one topmost node only. -/
theorem eq_of_tops {top other n : NodeId} (htop : t.parent? top = none)
    (hother : t.parent? other = none) (hn : t.AtOrBelow n top) (hn' : t.AtOrBelow n other) :
    top = other := by
  rcases Relation.ReflTransGen.cases_tail (atOrBelow_of_top htop hn hn') with heq | ⟨p, -, hp⟩
  · exact heq.symm
  · rw [ParentOf, hother] at hp
    cases hp

/-- Every node is below a topmost node. -/
theorem WellLinked.exists_top (h : t.WellLinked) (n : NodeId) :
    ∃ top, t.parent? top = none ∧ t.AtOrBelow n top := by
  induction h.wellFounded.apply n with
  | intro n _ ih =>
      cases hp : t.parent? n with
      | none => exact ⟨n, hp, .refl⟩
      | some p =>
          obtain ⟨top, htop, hbelow⟩ := ih p hp
          exact ⟨top, htop, hbelow.tail hp⟩

/-! ### Nodes below one node -/

/-- Two nodes are at or below two children of one node, the first at or below the child that is
listed first. -/
def Parted (t : Tree) (a b : NodeId) : Prop :=
  ∃ p c d before between after, t.children p = before ++ c :: (between ++ d :: after) ∧
    t.AtOrBelow a c ∧ t.AtOrBelow b d

/-- Of two members of a list one stands behind the other. -/
theorem exists_split_of_mem {α : Type} {l : List α} {a b : α} (ha : a ∈ l) (hb : b ∈ l)
    (hne : a ≠ b) :
    (∃ before between after, l = before ++ a :: (between ++ b :: after)) ∨
      ∃ before between after, l = before ++ b :: (between ++ a :: after) := by
  obtain ⟨front, back, rfl⟩ := List.append_of_mem ha
  rcases List.mem_append.mp hb with hb | hb
  · obtain ⟨before, between, rfl⟩ := List.append_of_mem hb
    exact .inr ⟨before, between, back, by simp⟩
  · obtain ⟨between, after, rfl⟩ := List.append_of_mem ((List.mem_cons.mp hb).resolve_left hne.symm)
    exact .inl ⟨front, between, after, rfl⟩

namespace WellLinked

/-- **How two nodes below one node can stand to each other**: they are the same, or one is above the
other, or they part below two children of one node. -/
theorem related_cases (h : t.WellLinked) {top a b : NodeId} (ha : t.AtOrBelow a top)
    (hb : t.AtOrBelow b top) :
    a = b ∨ t.Above a b ∨ t.Above b a ∨ t.Parted a b ∨ t.Parted b a := by
  induction ha using Relation.ReflTransGen.head_induction_on with
  | refl => exact (Relation.reflTransGen_iff_eq_or_transGen.mp hb).imp Eq.symm .inl
  | @head p c hc hac ih =>
      rcases Relation.ReflTransGen.cases_head hb with rfl | ⟨d, hd, hbd⟩
      · exact .inr (.inr (.inl (Relation.TransGen.head' hc hac)))
      · by_cases hne : c = d
        · exact ih (hne ▸ hbd)
        · -- the ways part here
          rcases exists_split_of_mem (h.parent?_eq_some_iff.mp hc) (h.parent?_eq_some_iff.mp hd)
            hne with ⟨before, between, after, hsplit⟩ | ⟨before, between, after, hsplit⟩
          · exact .inr (.inr (.inr (.inl ⟨p, c, d, before, between, after, hsplit, hac, hbd⟩)))
          · exact .inr (.inr (.inr (.inr ⟨p, d, c, before, between, after, hsplit, hbd, hac⟩)))

end WellLinked

/-! ### Document order -/

/-- Two nodes are below one topmost node. -/
def Together (t : Tree) (a b : NodeId) : Prop :=
  ∃ top, t.parent? top = none ∧ a ∈ t.subtree top ∧ b ∈ t.subtree top

/-- The walk down from a topmost node meets the first of two nodes before the second. -/
def Ahead (t : Tree) (a b : NodeId) : Prop :=
  ∃ top, t.parent? top = none ∧ [a, b].Sublist (t.subtree top)

/-- Of two nodes of one tree both are below its topmost node. -/
theorem Ahead.together {a b : NodeId} (hab : t.Ahead a b) : t.Together a b := by
  obtain ⟨top, htop, hsub⟩ := hab
  exact ⟨top, htop, hsub.subset (by simp), hsub.subset (by simp)⟩

/-- Being in one tree goes both ways. -/
theorem Together.symm {a b : NodeId} (hab : t.Together a b) : t.Together b a := by
  obtain ⟨top, htop, ha, hb⟩ := hab
  exact ⟨top, htop, hb, ha⟩

namespace WellLinked

/-- Nodes that are met in order below some node are met in this order below the topmost one. -/
theorem ahead_of_sublist (h : t.WellLinked) (scope : NodeId) {a b : NodeId}
    (hab : [a, b].Sublist (t.subtree scope)) : t.Ahead a b := by
  obtain ⟨top, htop, hscope⟩ := h.exists_top scope
  exact ⟨top, htop, hab.trans (h.subtree_sublist hscope)⟩

/-- A node is met before what is below it. -/
theorem ahead_of_above (h : t.WellLinked) {a b : NodeId} (hab : t.Above a b) : t.Ahead a b := by
  have hb : [b].Sublist (t.descendants a) :=
    List.singleton_sublist.mpr (h.mem_descendants_iff.mpr hab)
  exact h.ahead_of_sublist a (hb.cons_cons a)

/-- What is below a child is met before what is below a child listed behind it. -/
theorem ahead_of_parted (h : t.WellLinked) {a b : NodeId} (hab : t.Parted a b) : t.Ahead a b := by
  obtain ⟨p, c, d, before, between, after, hsplit, ha, hb⟩ := hab
  have ha : [a].Sublist (t.subtree c) := List.singleton_sublist.mpr (h.mem_subtree_iff.mpr ha)
  have hb : [b].Sublist (t.subtree d) := List.singleton_sublist.mpr (h.mem_subtree_iff.mpr hb)
  refine h.ahead_of_sublist p ?_
  rw [h.subtree_eq p, hsplit]
  simp only [List.flatMap_append, List.flatMap_cons]
  -- the subtree of the first child stands before the rest of the row, the second one's in that rest
  have hrest := hb.trans ((List.sublist_append_left _ (after.flatMap t.subtree)).trans
    (List.sublist_append_right (between.flatMap t.subtree) _))
  exact ((ha.append hrest).trans (List.sublist_append_right _ _)).cons p

/-- No two nodes are met in both orders. -/
theorem ahead_asymm (h : t.WellLinked) {a b : NodeId} (hab : t.Ahead a b) : ¬ t.Ahead b a := by
  rintro ⟨other, hother, hba⟩
  obtain ⟨top, htop, hab⟩ := hab
  obtain rfl : top = other :=
    eq_of_tops htop hother (h.mem_subtree_iff.mp (hab.subset (by simp : a ∈ [a, b])))
      (h.mem_subtree_iff.mp (hba.subset (by simp)))
  have hlt := h.pairwise_of_sublist_subtree hab
  have hgt := h.pairwise_of_sublist_subtree hba
  simp only [List.pairwise_pair] at hlt hgt
  exact absurd hgt (Nat.lt_asymm hlt)

/-- No node is met before itself. -/
theorem not_ahead_self (h : t.WellLinked) (n : NodeId) : ¬ t.Ahead n n :=
  fun hn => h.ahead_asymm hn hn

/-- A node is in the same tree as itself. -/
theorem together_self (h : t.WellLinked) (n : NodeId) : t.Together n n := by
  obtain ⟨top, htop, hn⟩ := h.exists_top n
  exact ⟨top, htop, h.mem_subtree_iff.mpr hn, h.mem_subtree_iff.mpr hn⟩

/-- Of two nodes of one tree that are not the same one is met before the other. -/
theorem ahead_or_ahead (h : t.WellLinked) {a b : NodeId} (hne : a ≠ b) (hab : t.Together a b) :
    t.Ahead a b ∨ t.Ahead b a := by
  obtain ⟨top, -, ha, hb⟩ := hab
  rcases h.related_cases (h.mem_subtree_iff.mp ha) (h.mem_subtree_iff.mp hb) with
    heq | hab | hba | hab | hba
  · exact absurd heq hne
  · exact .inl (h.ahead_of_above hab)
  · exact .inr (h.ahead_of_above hba)
  · exact .inl (h.ahead_of_parted hab)
  · exact .inr (h.ahead_of_parted hba)

end WellLinked

end Tree

end TreeSelect
