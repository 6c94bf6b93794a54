import TreeSelect.Proofs.Tree.Preorder
import TreeSelect.Proofs.Tree.Siblings
import TreeSelect.View
/-!
# Where one node stands relative to another

`Source.position` compares the two ways that lead down to two nodes. If one way goes on from the end
of the other, one node is above the other; if the ways part between two children of one node, the
order of these children decides; and if they start from different topmost nodes there is nothing to
compare. That is how two nodes of a well-linked tree can stand to each other, so the comparison of
ways, which never looks at the nodes in between, says which node the walk in document order meets
first.

## Main statements

* `Tree.position_eq_precedes_iff`: order among siblings is order in the list of children.
* `WellLinked.position_cases`: what the comparison says, and when.
* `Built.position_iff_order`: **the comparison of ways agrees with the walk in document order.**
-/

namespace TreeSelect

/-! ### Two ways -/

namespace Source

variable {ν : Type} [DecidableEq ν]

/-- A way that goes on from the end of another leads below that end. -/
theorem positionBelow_append (s : Source ν) (above : ν) (way rest : List ν) :
    s.positionBelow above way (way ++ rest) = .contains := by
  induction way generalizing above with
  | nil => rfl
  | cons n way ih => simpa [positionBelow] using ih n

/-- A way that another goes on from ends above the other's end. -/
theorem positionBelow_append_left (s : Source ν) (above : ν) (way : List ν) (n : ν)
    (rest : List ν) : s.positionBelow above (way ++ n :: rest) way = .follows := by
  induction way generalizing above with
  | nil => rfl
  | cons m way ih => simpa [positionBelow] using ih m

/-- Two ways that part are compared by the children of the node where they part. -/
theorem positionBelow_append_cons (s : Source ν) (above : ν) (way : List ν) {a b : ν}
    (hne : a ≠ b) (as bs : List ν) :
    s.positionBelow above (way ++ a :: as) (way ++ b :: bs) =
      positionAmong (s.children ((above :: way).getLast (by simp))) a b := by
  induction way generalizing above with
  | nil => simp [positionBelow, hne]
  | cons n way ih => simpa [positionBelow] using ih n

/-- Of two children the one that is listed first precedes the other, which follows it. -/
theorem positionAmong_of_nodup {before between after : List ν} {a b : ν}
    (h : (before ++ a :: (between ++ b :: after)).Nodup) :
    positionAmong (before ++ a :: (between ++ b :: after)) a b = .precedes ∧
      positionAmong (before ++ a :: (between ++ b :: after)) b a = .follows := by
  have hdisjoint := (List.nodup_append.mp h).2.2
  have hne : a ≠ b := by
    rintro rfl
    simp [List.nodup_append] at h
  -- whichever node is asked for first, the search ends at the one that is listed first
  have hbefore : ∀ n ∈ before, n ≠ a ∧ n ≠ b := fun n hn =>
    ⟨hdisjoint n hn a (by simp), hdisjoint n hn b (by simp)⟩
  have hfirst : ∀ p : ν → Bool, p a = true → (∀ n, n ≠ a → n ≠ b → p n = false) →
      (before ++ a :: (between ++ b :: after)).find? p = some a := by
    intro p ha hother
    refine List.find?_eq_some_iff_append.mpr ⟨ha, before, _, rfl, fun n hn => ?_⟩
    rw [hother n (hbefore n hn).1 (hbefore n hn).2, Bool.not_false]
  constructor
  · rw [positionAmong, hfirst _ (by simp) (by simp +contextual)]
    simp
  · rw [positionAmong, hfirst _ (by simp) (by simp +contextual)]
    simp [hne]

end Source

namespace Tree

variable {t : Tree}

/-- A tree and its source see the same way up. -/
theorem ancestorsWithin_source (t : Tree) (bound : Nat) (n : NodeId) :
    t.source.ancestorsWithin bound n = t.ancestorsWithin bound n := by
  induction bound generalizing n with
  | zero => rfl
  | succ bound ih =>
      simp only [Source.ancestorsWithin, ancestorsWithin, source]
      cases t.parent? n with
      | none => rfl
      | some p => exact congrArg (p :: ·) (ih p)

/-- The way down to a node ends with the node. -/
theorem path_eq_append (t : Tree) (n : NodeId) :
    t.source.path n = (t.ancestors n).reverse ++ [n] := by
  have hsame : t.source.ancestors n = t.ancestors n := ancestorsWithin_source t t.size n
  rw [Source.path, hsame, List.reverse_cons]

/-- Every way down starts somewhere. -/
theorem exists_path_eq_cons (t : Tree) (n : NodeId) : ∃ top way, t.source.path n = top :: way := by
  refine List.exists_cons_of_ne_nil ?_
  rw [path_eq_append]
  simp

/-! ### Comparing the ways -/

namespace WellLinked

/-- The way down to a node is the way down to its parent and one step more. -/
theorem path_of_parent? (h : t.WellLinked) {n p : NodeId} (hp : t.parent? n = some p) :
    t.source.path n = t.source.path p ++ [n] := by
  rw [path_eq_append, path_eq_append, h.ancestors_of_parent? hp, List.reverse_cons]

/-- The way down to a node goes on from the way down to anything above it. -/
theorem exists_path_of_atOrBelow (h : t.WellLinked) {n m : NodeId} (hn : t.AtOrBelow n m) :
    ∃ rest, t.source.path n = t.source.path m ++ rest := by
  induction hn with
  | refl => exact ⟨[], by simp⟩
  | @tail p n _ hp ih =>
      obtain ⟨rest, hrest⟩ := ih
      exact ⟨rest ++ [n], by rw [h.path_of_parent? hp, hrest, List.append_assoc]⟩

/-- The way down to a node below a child goes through the parent and the child. -/
theorem exists_path_of_child (h : t.WellLinked) {p c n : NodeId} (hc : c ∈ t.children p)
    (hn : t.AtOrBelow n c) : ∃ rest, t.source.path n = t.source.path p ++ c :: rest := by
  obtain ⟨rest, hrest⟩ := h.exists_path_of_atOrBelow hn
  refine ⟨rest, ?_⟩
  rw [hrest, h.path_of_parent? (h.parent?_eq_some_iff.mpr hc), List.append_assoc]
  rfl

/-- One of two nodes is above the other: the comparison says so in one direction, and in the other
that the node below follows. -/
theorem position_of_above (h : t.WellLinked) {a b : NodeId} (hab : t.Above a b) :
    t.source.position a b = .contains ∧ t.source.position b a = .follows := by
  obtain ⟨c, hc, hbc⟩ := Relation.TransGen.head'_iff.mp hab
  obtain ⟨rest, hrest⟩ := h.exists_path_of_child (h.parent?_eq_some_iff.mp hc) hbc
  obtain ⟨top, way, hway⟩ := exists_path_eq_cons t a
  have hne : a ≠ b := by
    rintro rfl
    exact h.not_above_self a hab
  rw [Source.position, if_neg hne, Source.position, if_neg hne.symm, hrest, hway]
  simp only [List.cons_append, Source.positionOfPaths, if_true]
  exact ⟨t.source.positionBelow_append top way _, t.source.positionBelow_append_left top way c _⟩

/-- Nodes below two children of one node are compared as these children are. -/
theorem position_of_children (h : t.WellLinked) {p c d a b : NodeId} (hc : c ∈ t.children p)
    (hd : d ∈ t.children p) (hne : c ≠ d) (ha : t.AtOrBelow a c) (hb : t.AtOrBelow b d) :
    t.source.position a b = Source.positionAmong (t.children p) c d := by
  obtain ⟨as, has⟩ := h.exists_path_of_child hc ha
  obtain ⟨bs, hbs⟩ := h.exists_path_of_child hd hb
  obtain ⟨top, way, hway⟩ := exists_path_eq_cons t p
  have hdifferent : a ≠ b := by
    rintro rfl
    exact hne (h.eq_of_atOrBelow_children hc hd ha hb)
  have hlast : (top :: way).getLast (by simp) = p := by
    simp only [← hway, path_eq_append, List.getLast_append_singleton]
  rw [Source.position, if_neg hdifferent, has, hbs, hway]
  simp only [List.cons_append, Source.positionOfPaths, if_true]
  rw [Source.positionBelow_append_cons _ _ _ hne, hlast]
  rfl

/-- Of two nodes that part the one below the child listed first precedes, and the other follows. -/
theorem position_of_parted (h : t.WellLinked) {a b : NodeId} (hab : t.Parted a b) :
    t.source.position a b = .precedes ∧ t.source.position b a = .follows := by
  obtain ⟨p, c, d, before, between, after, hsplit, ha, hb⟩ := hab
  have hnodup := h.nodup_children p
  have hc : c ∈ t.children p := by simp [hsplit]
  have hd : d ∈ t.children p := by simp [hsplit]
  have hne : c ≠ d := by
    rintro rfl
    simp [hsplit, List.nodup_append] at hnodup
  rw [h.position_of_children hc hd hne ha hb, h.position_of_children hd hc hne.symm hb ha, hsplit]
  exact Source.positionAmong_of_nodup (hsplit ▸ hnodup)

/-- Nodes below two different topmost nodes follow each other. -/
theorem position_of_tops_ne (h : t.WellLinked) {top other a b : NodeId}
    (htop : t.parent? top = none) (hother : t.parent? other = none) (hne : top ≠ other)
    (ha : t.AtOrBelow a top) (hb : t.AtOrBelow b other) : t.source.position a b = .follows := by
  obtain ⟨as, has⟩ := h.exists_path_of_atOrBelow ha
  obtain ⟨bs, hbs⟩ := h.exists_path_of_atOrBelow hb
  have hdifferent : a ≠ b := by
    rintro rfl
    exact hne (eq_of_tops htop hother ha hb)
  rw [Source.position, if_neg hdifferent, has, hbs, path_eq_append, path_eq_append,
    ancestors_of_parent?_eq_none htop, ancestors_of_parent?_eq_none hother]
  simp [Source.positionOfPaths, hne]

end WellLinked

/-- Of two children of one node the first precedes exactly if the second is listed behind it. -/
theorem position_eq_precedes_iff (h : t.WellLinked) {p a b : NodeId}
    (ha : t.parent? a = some p) (hb : t.parent? b = some p) :
    t.source.position a b = .precedes ↔
      ∃ before between after, t.children p = before ++ a :: (between ++ b :: after) := by
  have hac := h.parent?_eq_some_iff.mp ha
  have hbc := h.parent?_eq_some_iff.mp hb
  constructor
  · intro hp
    have hne : a ≠ b := by
      rintro rfl
      rw [Source.position_self] at hp
      cases hp
    rcases exists_split_of_mem hac hbc hne with hsplit | ⟨before, between, after, hsplit⟩
    · exact hsplit
    · have hnodup := h.nodup_children p
      rw [h.position_of_children hac hbc hne .refl .refl, hsplit] at hp
      rw [hsplit] at hnodup
      rw [(Source.positionAmong_of_nodup hnodup).2] at hp
      cases hp
  · rintro ⟨before, between, after, hsplit⟩
    exact (h.position_of_parted ⟨p, a, b, before, between, after, hsplit, .refl, .refl⟩).1

/-! ### Places and ways -/

namespace WellLinked

/-- **What the comparison says, and when.** -/
theorem position_cases (h : t.WellLinked) (a b : NodeId) :
    a = b ∧ t.source.position a b = .same ∨
      t.Ahead a b ∧ t.Above a b ∧ t.source.position a b = .contains ∨
      t.Ahead a b ∧ ¬ t.Above a b ∧ t.source.position a b = .precedes ∨
      t.Ahead b a ∧ t.source.position a b = .follows ∨
      ¬ t.Together a b ∧ t.source.position a b = .follows := by
  by_cases htogether : t.Together a b
  · obtain ⟨top, -, ha, hb⟩ := htogether
    rcases h.related_cases (h.mem_subtree_iff.mp ha) (h.mem_subtree_iff.mp hb) with
      rfl | hab | hba | hab | hba
    · exact .inl ⟨rfl, Source.position_self _ _⟩
    · exact .inr (.inl ⟨h.ahead_of_above hab, hab, (h.position_of_above hab).1⟩)
    · exact .inr (.inr (.inr (.inl ⟨h.ahead_of_above hba, (h.position_of_above hba).2⟩)))
    · have hprecedes := (h.position_of_parted hab).1
      refine .inr (.inr (.inl ⟨h.ahead_of_parted hab, fun habove => ?_, hprecedes⟩))
      rw [(h.position_of_above habove).1] at hprecedes
      cases hprecedes
    · exact .inr (.inr (.inr (.inl ⟨h.ahead_of_parted hba, (h.position_of_parted hba).2⟩)))
  · obtain ⟨top, htop, ha⟩ := h.exists_top a
    obtain ⟨other, hother, hb⟩ := h.exists_top b
    have hne : top ≠ other := by
      rintro rfl
      exact htogether ⟨top, htop, h.mem_subtree_iff.mpr ha, h.mem_subtree_iff.mpr hb⟩
    exact .inr (.inr (.inr (.inr ⟨htogether, h.position_of_tops_ne htop hother hne ha hb⟩)))

/-- A node is the same as itself only. -/
theorem position_eq_same_iff (h : t.WellLinked) {a b : NodeId} :
    t.source.position a b = .same ↔ a = b := by
  refine ⟨fun hp => ?_, fun heq => heq ▸ Source.position_self _ _⟩
  rcases h.position_cases a b with ⟨heq, -⟩ | ⟨-, -, hq⟩ | ⟨-, -, hq⟩ | ⟨-, hq⟩ | ⟨-, hq⟩
  case inl => exact heq
  all_goals
    rw [hp] at hq
    cases hq

/-- A node contains what it is above. -/
theorem position_eq_contains_iff (h : t.WellLinked) {a b : NodeId} :
    t.source.position a b = .contains ↔ t.Above a b := by
  refine ⟨fun hp => ?_, fun hab => (h.position_of_above hab).1⟩
  rcases h.position_cases a b with ⟨-, hq⟩ | ⟨-, hab, -⟩ | ⟨-, -, hq⟩ | ⟨-, hq⟩ | ⟨-, hq⟩
  case inr.inl => exact hab
  all_goals
    rw [hp] at hq
    cases hq

/-- A node precedes what is met after it and is not below it. -/
theorem position_eq_precedes_iff_ahead (h : t.WellLinked) {a b : NodeId} :
    t.source.position a b = .precedes ↔ t.Ahead a b ∧ ¬ t.Above a b := by
  rcases h.position_cases a b with ⟨rfl, hp⟩ | ⟨-, habove, hp⟩ | ⟨hab, hnot, hp⟩ | ⟨hba, hp⟩ |
    ⟨hno, hp⟩
  · simp [h.not_ahead_self]
  · simp [hp, habove]
  · simp [hp, hab, hnot]
  · simp [hp, h.ahead_asymm hba]
  · have hab : ¬ t.Ahead a b := fun hab => hno hab.together
    simp [hp, hab]

/-- A node follows what it is met after, and the nodes of other trees. -/
theorem position_eq_follows_iff (h : t.WellLinked) {a b : NodeId} :
    t.source.position a b = .follows ↔ t.Ahead b a ∨ ¬ t.Together a b := by
  rcases h.position_cases a b with ⟨rfl, hp⟩ | ⟨hab, -, hp⟩ | ⟨hab, -, hp⟩ | ⟨hba, hp⟩ | ⟨hno, hp⟩
  · simp [h.not_ahead_self, h.together_self]
  · simp [hp, h.ahead_asymm hab, hab.together]
  · simp [hp, h.ahead_asymm hab, hab.together]
  · simp [hp, hba]
  · simp [hp, hno]

end WellLinked

/-- **The comparison of ways agrees with the walk in document order.** In every grown tree a node is
the same as another if it is the other; it contains what is below it; it precedes what is met after
it in the same tree and is not below it; and in every other case it follows: if it is met after the
other, in particular if it is below the other, and if the two are in different trees. Hence of two
different nodes of one tree exactly one follows the other. -/
theorem Built.position_iff_order {t : Tree} (h : t.Built) (a b : NodeId) :
    (t.source.position a b = .same ↔ a = b) ∧
    (t.source.position a b = .contains ↔ b ∈ t.descendants a) ∧
    (t.source.position a b = .precedes ↔ t.Ahead a b ∧ b ∉ t.descendants a) ∧
    (t.source.position a b = .follows ↔
      t.Ahead b a ∨ a ∈ t.descendants b ∨ ¬ t.Together a b) ∧
    (a ≠ b → t.Together a b →
      (t.source.position a b = .follows ↔ t.source.position b a ≠ .follows)) := by
  have hw := h.wellLinked
  rw [hw.mem_descendants_iff, hw.mem_descendants_iff]
  refine ⟨hw.position_eq_same_iff, hw.position_eq_contains_iff,
    hw.position_eq_precedes_iff_ahead, ?_, fun hne htogether => ?_⟩
  · rw [hw.position_eq_follows_iff]
    constructor
    · rintro (hba | hno)
      · exact .inl hba
      · exact .inr (.inr hno)
    · rintro (hba | hbelow | hno)
      · exact .inl hba
      · exact .inl (hw.ahead_of_above hbelow)
      · exact .inr hno
  · rw [hw.position_eq_follows_iff, ne_eq, hw.position_eq_follows_iff]
    simp only [htogether, htogether.symm, not_true_eq_false, or_false]
    exact ⟨fun hba => hw.ahead_asymm hba, (hw.ahead_or_ahead hne htogether).resolve_left⟩

/-- A body of a heading, a text and a paragraph with one word in it, and an element beside the
tree. -/
def headedBody : Tree :=
  (((((empty.append 0 (.element ⟨"BODY".toList, .empty⟩)).append 1
    (.element ⟨"h1".toList, .empty⟩)).append 1 (.text [' '])).append 1
      (.element ⟨['p'], .empty⟩)).append 4 (.element ⟨"em".toList, .empty⟩)).alloc
        (.element ⟨"aside".toList, .empty⟩)

/-- The heading precedes the word, which follows it; the body contains the word; and the element
beside the tree and the heading follow each other. -/
theorem position_iff_order_headedBody :
    headedBody.Built ∧ headedBody.source.position 2 5 = .precedes ∧
      headedBody.source.position 5 2 = .follows ∧ headedBody.source.position 1 5 = .contains ∧
      headedBody.source.position 2 6 = .follows ∧ headedBody.source.position 6 2 = .follows := by
  have hbuilt : headedBody.Built := by
    refine .alloc _ (.append _ (.append _ (.append _ (.append _ (.append _ .empty ?_)
      ?_) ?_) ?_) ?_)
    all_goals decide
  have hahead : headedBody.Ahead 2 5 := ⟨0, by decide, by decide⟩
  have hapart : ¬ headedBody.Together 2 6 := by
    rintro ⟨top, htop, hheading, haside⟩
    obtain rfl : top = 6 := eq_of_tops htop (by decide)
      (hbuilt.wellLinked.mem_subtree_iff.mp haside) .refl
    revert hheading
    decide
  obtain ⟨-, -, hprecedes, -, hone⟩ := hbuilt.position_iff_order 2 5
  obtain ⟨-, hcontains, -, -, -⟩ := hbuilt.position_iff_order 1 5
  obtain ⟨-, -, -, hfollows, -⟩ := hbuilt.position_iff_order 2 6
  obtain ⟨-, -, -, hfollows', -⟩ := hbuilt.position_iff_order 6 2
  have hfirst : headedBody.source.position 2 5 = .precedes := hprecedes.mpr ⟨hahead, by decide⟩
  refine ⟨hbuilt, hfirst, ?_, hcontains.mpr (by decide), hfollows.mpr (.inr (.inr hapart)),
    hfollows'.mpr (.inr (.inr fun htogether => hapart htogether.symm))⟩
  refine not_not.mp fun hnot => ?_
  rw [(hone (by decide) hahead.together).mpr hnot] at hfirst
  cases hfirst

end Tree

end TreeSelect
