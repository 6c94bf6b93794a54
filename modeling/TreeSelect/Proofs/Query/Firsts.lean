import TreeSelect.Distinct
import TreeSelect.Proofs.Query.Chain
import TreeSelect.Selector.Parser
/-!
# First occurrences

Dropping the repetitions of a list leaves each member where the list first has it. There is only one
list with the same members, each once, in this order, so this says all about the result.

The alternatives of a selector list are answered one after the other, and a node that several of
them find is in the answer several times. It is there first for the sake of the first alternative
that finds it. So without repetitions an answer comes in blocks, one for each alternative: what the
alternative finds and no earlier one does, in the order in which it finds it.

## Main definitions

* `Firsts`: the members of a list in the order of their first occurrences.

## Main statements

* `firsts_iff`: there is one such list, that of the distinct members.
* `idxOf_distinct_append_append`: the place of a member, told from the part that has it first.
* `SelectorList.exists_first_finder`: a node that is found is found by a first alternative.
* `distinct_keeps_firsts`: **dropping repetitions keeps first occurrences.**
-/

namespace TreeSelect

/-! ### Lists -/

section Lists

variable {α : Type} [DecidableEq α]

/-- The members of a list, each once, in the order in which the list first has them. -/
structure Firsts (l firsts : List α) : Prop where
  /-- No member stands twice. -/
  nodup : firsts.Nodup
  /-- They are the members of the list. -/
  mem_iff : ∀ a, a ∈ firsts ↔ a ∈ l
  /-- What the list has first stands first. -/
  increasing : firsts.Pairwise fun a b => l.idxOf a < l.idxOf b

/-- The distinct members stand in the order of their first occurrences. -/
theorem pairwise_idxOf_distinct (l : List α) :
    (distinct l).Pairwise fun a b => l.idxOf a < l.idxOf b := by
  induction l with
  | nil => exact .nil
  | cons a rest ih =>
      have hother : ∀ b ∈ (distinct rest).filter (· != a), a ≠ b := fun b hb hab => by
        simp [hab] at hb
      refine .cons (fun b hb => ?_) ((ih.filter _).imp_of_mem fun {b c} hb hc hlt => ?_)
      · rw [List.idxOf_cons_self, List.idxOf_cons_ne _ (hother b hb)]
        exact Nat.succ_pos _
      · rw [List.idxOf_cons_ne _ (hother b hb), List.idxOf_cons_ne _ (hother c hc)]
        exact Nat.succ_lt_succ hlt

/-- The distinct members are the members in the order of their first occurrences. -/
theorem firsts_distinct (l : List α) : Firsts l (distinct l) :=
  ⟨nodup_distinct l, fun _ => mem_distinct, pairwise_idxOf_distinct l⟩

/-- **There is one list of the members in the order of their first occurrences.** -/
theorem firsts_iff {l firsts : List α} : Firsts l firsts ↔ firsts = distinct l := by
  refine ⟨fun h => ?_, fun h => h ▸ firsts_distinct l⟩
  have hmembers : ∀ a, a ∈ firsts ↔ a ∈ distinct l := fun a => (h.mem_iff a).trans mem_distinct.symm
  have hperm : firsts.Perm (distinct l) :=
    (List.perm_ext_iff_of_nodup h.nodup (nodup_distinct l)).mpr hmembers
  exact hperm.eq_of_pairwise (fun a b _ _ hab hba => absurd hab hba.asymm) h.increasing
    (pairwise_idxOf_distinct l)

/-- The first part of a list that has a member decides where the list first has it. -/
theorem idxOf_append_append {a : α} {earlier own : List α} (hearlier : a ∉ earlier) (hown : a ∈ own)
    (later : List α) :
    (earlier ++ (own ++ later)).idxOf a = earlier.length + own.idxOf a := by
  rw [List.idxOf_append_of_notMem hearlier, List.idxOf_append_of_mem hown]

/-- Without repetitions a member stands behind those of the parts before the first part that has it,
and among those that this part has first. -/
theorem idxOf_distinct_append_append {a : α} {earlier own : List α} (hearlier : a ∉ earlier)
    (hown : a ∈ own) (later : List α) :
    (distinct (earlier ++ (own ++ later))).idxOf a =
      (distinct earlier).length +
        ((distinct own).filter fun b => !earlier.contains b).idxOf a := by
  have hfront : a ∉ distinct earlier := fun hmem => hearlier (mem_distinct.mp hmem)
  have hnew : a ∈ (distinct own).filter fun b => !earlier.contains b := by simp [hown, hearlier]
  rw [distinct_append, distinct_append, List.filter_append, idxOf_append_append hfront hnew]

end Lists

/-! ### Alternatives -/

variable {ν : Type} [DecidableEq ν]

/-- Among the alternatives that find a node there is a first. -/
theorem SelectorList.exists_first_finder {list : SelectorList} {v : View ν} {options : Options}
    {scope n : ν} (h : n ∈ list.matches v options scope) :
    ∃ (before : SelectorList) (s : Selector) (after : SelectorList),
      list = before ++ s :: after ∧ n ∈ s.matches v options scope ∧
        n ∉ before.matches v options scope := by
  induction list with
  | nil => exact absurd h List.not_mem_nil
  | cons s rest ih =>
      by_cases hs : n ∈ s.matches v options scope
      · exact ⟨[], s, rest, rfl, hs, List.not_mem_nil⟩
      · have hrest : n ∈ SelectorList.matches rest v options scope :=
          (List.mem_append.mp h).resolve_left hs
        obtain ⟨before, first, after, rfl, hfirst, hbefore⟩ := ih hrest
        refine ⟨s :: before, first, after, rfl, hfirst, fun hn => ?_⟩
        exact (List.mem_append.mp hn).elim hs hbefore

/-- **Dropping repetitions keeps first occurrences.** The loop that adds what it has not seen
gathers the distinct members of a list: its members, each once, in the order in which the list first
has them, and this is the only such list. It is a part of the list, nothing more is dropped the
second time, and of a second list what the first does not have is added.

For the answer of a selector list this means that each node stays where the first alternative that
finds it has it: in the answer it comes behind what the earlier alternatives find, and at its place
in what this one finds; without repetitions, behind the distinct nodes that the earlier ones find,
and at its place among those that this one finds and they do not. -/
theorem distinct_keeps_firsts (xs ys : List ν) :
    (xs.foldl collect [] = distinct xs ∧
      (∀ firsts, Firsts xs firsts ↔ firsts = distinct xs) ∧
      (distinct xs).Sublist xs ∧
      distinct (distinct xs) = distinct xs ∧
      distinct (xs ++ ys) = distinct xs ++ (distinct ys).filter fun b => !xs.contains b) ∧
    ∀ (list : SelectorList) (v : View ν) (options : Options) (scope : ν),
      let found := list.matches v options scope
      ∀ n ∈ found, ∃ (before : SelectorList) (s : Selector) (after : SelectorList),
        list = before ++ s :: after ∧
        n ∈ s.matches v options scope ∧ n ∉ before.matches v options scope ∧
        found.idxOf n =
          (before.matches v options scope).length + (s.matches v options scope).idxOf n ∧
        (distinct found).idxOf n =
          (distinct (before.matches v options scope)).length +
            ((distinct (s.matches v options scope)).filter fun m =>
              !(before.matches v options scope).contains m).idxOf n := by
  refine ⟨⟨foldl_collect [] xs, fun _ => firsts_iff, distinct_sublist xs,
    distinct_eq_self (nodup_distinct xs), distinct_append xs ys⟩, ?_⟩
  intro list v options scope found n hn
  obtain ⟨before, s, after, rfl, hs, hbefore⟩ := SelectorList.exists_first_finder hn
  have hfound : found = before.matches v options scope ++
      (s.matches v options scope ++ SelectorList.matches after v options scope) :=
    SelectorList.matches_append before (s :: after) v options scope
  refine ⟨before, s, after, rfl, hs, hbefore, ?_, ?_⟩
  · rw [hfound]
    exact idxOf_append_append hbefore hs _
  · rw [hfound]
    exact idxOf_distinct_append_append hbefore hs _

/-- Of three nested elements the innermost is found by the first alternative, so it stays in front
of the one around it, although the second alternative finds that one before it. -/
theorem distinct_keeps_firsts_nestedThree :
    let list := SelectorList.parse "c, * *, b".toList
    let found := list.matches Selector.nestedThree.view .setToSet 0
    found = [3, 2, 3, 2] ∧ distinct found = [3, 2] ∧ 2 ∈ found ∧
      ∃ (before : SelectorList) (s : Selector) (after : SelectorList),
        list = before ++ s :: after ∧
        2 ∈ s.matches Selector.nestedThree.view .setToSet 0 ∧
        2 ∉ before.matches Selector.nestedThree.view .setToSet 0 ∧
        found.idxOf 2 = (before.matches Selector.nestedThree.view .setToSet 0).length +
          (s.matches Selector.nestedThree.view .setToSet 0).idxOf 2 := by
  intro list found
  have hfound : found = [3, 2, 3, 2] := by decide +kernel
  have hmem : 2 ∈ found := by simp [hfound]
  obtain ⟨⟨-, hfirsts, -⟩, hplace⟩ := distinct_keeps_firsts found []
  have hkept : Firsts found [3, 2] := by
    rw [hfound]
    exact ⟨by decide, fun n => by grind, by decide⟩
  obtain ⟨before, s, after, hlist, hs, hbefore, hplaced, -⟩ :=
    hplace list Selector.nestedThree.view .setToSet 0 2 hmem
  exact ⟨hfound, ((hfirsts _).mp hkept).symm, hmem, before, s, after, hlist, hs, hbefore, hplaced⟩

end TreeSelect
