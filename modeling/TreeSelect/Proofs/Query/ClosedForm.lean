import Mathlib.Data.Fin.Tuple.Basic
import Mathlib.Data.List.Basic
import Mathlib.Data.List.Flatten
import TreeSelect.Query.Match
/-!
# Chains without recursion

Evaluating a chain goes down to its last simple selector and comes back: each combinator filters
what the remainder on its right has found, until a combinator reports its anchors, which then take
the place of what was found. Read from the outside this is one filter. The first combinator that
reports its anchors fixes the nodes that are filtered; each combinator before it must relate one of
its own anchors to a node that is kept, and the remainder behind it is only asked whether it holds a
relative of the node.

When only the first match on the left of a combinator is an anchor, every combinator of a chain has
fewer anchors. It has fewer candidates as well, for the remainder on its right is evaluated in the
same way. Whichever side it reports, it reports a node for the sake of a relative on the other side,
so with fewer nodes on both sides it reports no more than before, and in the same order.

## Main definitions

* `Combinator.ReportsLeft`: the combinators whose anchors are reported.
* `Selector.combinator`, `Selector.left`, `Selector.right`, `Selector.behind`: the parts of a chain
  by the place of a combinator.
* `Selector.anchors`, `Selector.Kept`: the anchors of a combinator, and what several of them ask of
  a node.
* `Selector.firstReporting?`: the first combinator whose anchors are reported.

## Main statements

* `Selector.matches_closed_form`: **what a chain finds, in one step.**
* `filter_exists_sublist`: fewer nodes, each with a relative among fewer others, are fewer.
* `Selector.matches_sublist_every`: a chain finds no more than it finds with all anchors.
* `SelectorList.matches_first_sublist_every`: **a single anchor never adds a match.**
-/

namespace TreeSelect

/-! ### The side that is reported -/

/-- The anchors of `<` are reported always, those of `~` where the options ask for them. -/
def Combinator.ReportsLeft (c : Combinator) (options : Options) : Prop :=
  c = .reverseChild ∨ (c = .subsequentSibling ∧ options.siblingResult = .anchor)

instance (c : Combinator) (options : Options) : Decidable (c.ReportsLeft options) :=
  inferInstanceAs (Decidable (_ ∨ _))

/-- Evaluation reports the anchors of these combinators and of no others. -/
theorem Combinator.reportsAnchor_iff {c : Combinator} {options : Options} :
    c.reportsAnchor options = true ↔ c.ReportsLeft options := by
  cases c <;> simp [reportsAnchor, ReportsLeft]

/-- Evaluation reports the candidates of all other combinators. -/
theorem Combinator.reportsAnchor_eq_false_iff {c : Combinator} {options : Options} :
    c.reportsAnchor options = false ↔ ¬ c.ReportsLeft options := by
  rw [← reportsAnchor_iff, Bool.not_eq_true]

namespace Selector

/-! ### The parts of a chain -/

/-- The combinator at a place of a chain. -/
def combinator (s : Selector) (i : Fin s.rest.length) : Combinator :=
  (s.rest.get i).1

/-- The simple selector on the right of a combinator. -/
def right (s : Selector) (i : Fin s.rest.length) : Simple :=
  (s.rest.get i).2

/-- The simple selector on the left of a combinator. -/
def left (s : Selector) (i : Fin s.rest.length) : Simple :=
  s.simples.get ⟨i, by rw [length_simples]; exact Nat.lt_succ_of_lt i.isLt⟩

/-- What stands behind a combinator, as a chain of its own. -/
def behind (s : Selector) (i : Fin s.rest.length) : Selector :=
  ⟨s.right i, s.rest.drop (i + 1)⟩

/-- The place of the first combinator whose anchors are reported. -/
def firstReporting? (s : Selector) (options : Options) : Option (Fin s.rest.length) :=
  Fin.find? fun i => decide ((s.combinator i).ReportsLeft options)

variable {ν : Type} (v : View ν) (options : Options) (scope : ν)

/-- The anchors of a combinator: what the simple selector on its left finds, of which only the first
counts where the options say so. -/
def anchors (s : Selector) (i : Fin s.rest.length) : List ν :=
  match options.anchorMode with
  | .first => ((s.left i).resolve v scope).take 1
  | .every => (s.left i).resolve v scope

/-- Evaluation selects the anchors of the first combinator among what the head finds. -/
theorem anchors_zero (head right : Simple) (c : Combinator) (rest : List (Combinator × Simple)) :
    anchors v options scope ⟨head, (c, right) :: rest⟩ ⟨0, Nat.succ_pos rest.length⟩ =
      options.anchorMode.select (head.resolve v scope) := by
  unfold anchors
  cases options.anchorMode <;> rfl

variable [DecidableEq ν]

/-- Each combinator before a place relates one of its anchors to a node. -/
def Kept (s : Selector) (place : ℕ) (n : ν) : Prop :=
  ∀ i : Fin s.rest.length, i < place →
    ∃ a ∈ s.anchors v options scope i, (s.combinator i).relates v (s.right i) a n = true

instance (s : Selector) (place : ℕ) (n : ν) : Decidable (s.Kept v options scope place n) :=
  inferInstanceAs (Decidable (∀ i : Fin s.rest.length, i < place →
    ∃ a ∈ s.anchors v options scope i, (s.combinator i).relates v (s.right i) a n = true))

variable {v options scope} {head right : Simple} {c : Combinator}
  {rest : List (Combinator × Simple)}

/-- No combinator stands before the first place. -/
theorem kept_zero (s : Selector) (n : ν) : s.Kept v options scope 0 n :=
  fun i hi => absurd hi (Nat.not_lt_zero i)

/-- The combinators before a later place are the first one and those of the remainder. -/
theorem kept_succ {place : ℕ} {n : ν} :
    Kept v options scope ⟨head, (c, right) :: rest⟩ (place + 1) n ↔
      (∃ a ∈ options.anchorMode.select (head.resolve v scope), c.relates v right a n = true) ∧
        Kept v options scope ⟨right, rest⟩ place n := by
  rw [← anchors_zero v options scope head right c rest]
  refine (Fin.forall_fin_succ (n := rest.length)).trans ?_
  refine and_congr ⟨fun h => h (Nat.succ_pos place), fun h _ => h⟩ ?_
  exact forall_congr' fun i => imp_congr_left Nat.succ_lt_succ_iff

/-- The last simple selector of a chain is that of its remainder. -/
theorem subject_cons : subject ⟨head, (c, right) :: rest⟩ = subject ⟨right, rest⟩ := by
  simp only [subject, List.getLast?_cons]
  cases rest.getLast? <;> rfl

/-! ### Evaluation -/

/-- A combinator that reports its candidates filters what the remainder finds. -/
theorem matches_cons_of_not_reportsAnchor (hc : c.reportsAnchor options = false) :
    Selector.matches ⟨head, (c, right) :: rest⟩ v options scope =
      (Selector.matches ⟨right, rest⟩ v options scope).filter fun n =>
        ∃ a ∈ options.anchorMode.select (head.resolve v scope), c.relates v right a n = true := by
  rw [Selector.matches, matchChain, hc]
  refine List.filter_congr fun n _ => ?_
  rw [Bool.eq_iff_iff, List.any_eq_true, decide_eq_true_iff]

/-- A combinator that reports its anchors keeps those with a relative among what the remainder
finds. -/
theorem matches_cons_of_reportsAnchor (hc : c.reportsAnchor options = true) :
    Selector.matches ⟨head, (c, right) :: rest⟩ v options scope =
      (options.anchorMode.select (head.resolve v scope)).filter fun n =>
        ∃ m ∈ Selector.matches ⟨right, rest⟩ v options scope, c.relates v right n m = true := by
  rw [Selector.matches, matchChain, hc]
  refine List.filter_congr fun n _ => ?_
  rw [Bool.eq_iff_iff, List.any_eq_true, decide_eq_true_iff]
  rfl

/-- A filter behind a combinator that reports its candidates is one filter. -/
theorem filter_kept_succ {l : List ν} {place : ℕ} {p : ν → Prop} [DecidablePred p] :
    (l.filter fun n => Kept v options scope ⟨right, rest⟩ place n ∧ p n).filter (fun n =>
        ∃ a ∈ options.anchorMode.select (head.resolve v scope), c.relates v right a n = true) =
      l.filter fun n =>
        Kept v options scope ⟨head, (c, right) :: rest⟩ (place + 1) n ∧ p n := by
  rw [List.filter_filter]
  refine List.filter_congr fun n _ => ?_
  simp only [kept_succ, Bool.decide_and, Bool.and_assoc]

/-- A chain that reports its last candidates filters what its last simple selector finds. -/
theorem matches_of_not_reportsLeft (s : Selector)
    (hs : ∀ i, ¬ (s.combinator i).ReportsLeft options) :
    s.matches v options scope =
      (s.subject.resolve v scope).filter fun n => s.Kept v options scope s.rest.length n := by
  obtain ⟨head, rest⟩ := s
  induction rest generalizing head with
  | nil =>
      exact (List.filter_eq_self.mpr fun n _ => decide_eq_true (kept_zero ⟨head, []⟩ n)).symm
  | cons step rest ih =>
      obtain ⟨c, right⟩ := step
      have hc : c.reportsAnchor options = false := Combinator.reportsAnchor_eq_false_iff.mpr (hs 0)
      have hrest := ih right fun i => hs i.succ
      rw [matches_cons_of_not_reportsAnchor hc, hrest, subject_cons]
      simpa using filter_kept_succ (p := fun _ => True)

/-- A chain that reports the anchors of a combinator filters these. -/
theorem matches_of_reportsLeft (s : Selector) (j : Fin s.rest.length)
    (hj : (s.combinator j).ReportsLeft options)
    (hbefore : ∀ i < j, ¬ (s.combinator i).ReportsLeft options) :
    s.matches v options scope =
      (s.anchors v options scope j).filter fun n => s.Kept v options scope j n ∧
        ∃ m ∈ (s.behind j).matches v options scope,
          (s.combinator j).relates v (s.right j) n m = true := by
  obtain ⟨head, rest⟩ := s
  induction rest generalizing head with
  | nil => exact j.elim0
  | cons step rest ih =>
      obtain ⟨c, right⟩ := step
      induction j using Fin.cases with
      | zero =>
          have hc : c.reportsAnchor options = true := Combinator.reportsAnchor_iff.mpr hj
          rw [matches_cons_of_reportsAnchor hc, ← anchors_zero]
          refine List.filter_congr fun n _ => ?_
          have hkept : Kept v options scope ⟨head, (c, right) :: rest⟩ 0 n := kept_zero _ n
          exact decide_eq_decide.mpr (and_iff_right hkept).symm
      | succ j =>
          have hc : c.reportsAnchor options = false :=
            Combinator.reportsAnchor_eq_false_iff.mpr (hbefore 0 (Fin.succ_pos j))
          have hrest := ih right j hj fun i hi => hbefore i.succ (Fin.succ_lt_succ_iff.mpr hi)
          rw [matches_cons_of_not_reportsAnchor hc, hrest]
          exact filter_kept_succ

/-- **What a chain finds, in one step.** If of no combinator the anchors are reported, the chain
finds what its last simple selector finds, as far as each combinator relates an anchor to it.
Otherwise it finds the anchors of the first combinator of which they are reported, as far as each
combinator before it relates an anchor to them and the remainder behind it holds a relative. Either
way the order is that of the nodes that are filtered. -/
theorem matches_closed_form (s : Selector) (v : View ν) (options : Options) (scope : ν) :
    match s.firstReporting? options with
    | none =>
        s.matches v options scope =
          (s.subject.resolve v scope).filter fun n => s.Kept v options scope s.rest.length n
    | some j =>
        s.matches v options scope =
          (s.anchors v options scope j).filter fun n => s.Kept v options scope j n ∧
            ∃ m ∈ (s.behind j).matches v options scope,
              (s.combinator j).relates v (s.right j) n m = true := by
  split
  · rename_i hnone
    have hs := Fin.find?_eq_none_iff.mp hnone
    exact matches_of_not_reportsLeft s fun i => of_decide_eq_false (hs i)
  · rename_i j hsome
    obtain ⟨hj, hbefore⟩ := Fin.find?_eq_some_iff.mp hsome
    exact matches_of_reportsLeft s j (of_decide_eq_true hj) fun i hi =>
      of_decide_eq_false (hbefore i hi)

end Selector

/-! ### Fewer anchors -/

/-- Fewer members, each with a relative among fewer others, are fewer members with a relative. -/
theorem filter_exists_sublist {α β : Type} (r : α → β → Bool) {few all : List α}
    {fewOthers allOthers : List β} (h : few.Sublist all) (hothers : fewOthers ⊆ allOthers) :
    (few.filter fun a => ∃ b ∈ fewOthers, r a b = true).Sublist
      (all.filter fun a => ∃ b ∈ allOthers, r a b = true) := by
  have hweaker : (few.filter fun a => ∃ b ∈ fewOthers, r a b = true).Sublist
      (few.filter fun a => ∃ b ∈ allOthers, r a b = true) := by
    refine List.monotone_filter_right few fun a ha => ?_
    obtain ⟨b, hb, hab⟩ := of_decide_eq_true ha
    exact decide_eq_true ⟨b, hothers hb, hab⟩
  exact hweaker.trans (h.filter _)

variable {ν : Type} [DecidableEq ν]

/-- Which side a combinator reports does not depend on how many anchors there are. -/
theorem Combinator.reportsAnchor_every (c : Combinator) (mode : AnchorMode) (side : SiblingResult) :
    c.reportsAnchor ⟨.every, side⟩ = c.reportsAnchor ⟨mode, side⟩ :=
  rfl

/-- A chain finds no more, and in the same order, than it finds with all anchors. -/
theorem Selector.matches_sublist_every (s : Selector) (v : View ν) (mode : AnchorMode)
    (side : SiblingResult) (scope : ν) :
    (s.matches v ⟨mode, side⟩ scope).Sublist (s.matches v ⟨.every, side⟩ scope) := by
  obtain ⟨head, rest⟩ := s
  induction rest generalizing head with
  | nil => exact List.Sublist.refl _
  | cons step rest ih =>
      obtain ⟨c, right⟩ := step
      have hcandidates := ih right
      have hanchors := mode.select_sublist (head.resolve v scope)
      cases hc : c.reportsAnchor ⟨mode, side⟩ with
      | true =>
          have hevery := (c.reportsAnchor_every mode side).trans hc
          rw [matches_cons_of_reportsAnchor hc, matches_cons_of_reportsAnchor hevery]
          exact filter_exists_sublist _ hanchors hcandidates.subset
      | false =>
          have hevery := (c.reportsAnchor_every mode side).trans hc
          rw [matches_cons_of_not_reportsAnchor hc, matches_cons_of_not_reportsAnchor hevery]
          exact filter_exists_sublist (fun n a => c.relates v right a n) hcandidates
            hanchors.subset

/-- **A single anchor never adds a match.** However a tree is looked at, below every node and
whichever side of `~` is reported, what a selector list finds with the first anchor only is found
with all anchors too, in the same order. -/
theorem SelectorList.matches_first_sublist_every (list : SelectorList) (v : View ν)
    (side : SiblingResult) (scope : ν) :
    (list.matches v ⟨.first, side⟩ scope).Sublist (list.matches v ⟨.every, side⟩ scope) :=
  List.Sublist.flatMap_right list fun s _ => s.matches_sublist_every v .first side scope

end TreeSelect
