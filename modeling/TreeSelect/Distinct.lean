/-!
# Distinct members

## Main definitions

* `distinct`: a list without repetitions.
* `collect`: one step of a loop that gathers the members of a list.

## Main statements

* `mem_distinct`, `nodup_distinct`: it has the same members, each once.
* `distinct_sublist`, `distinct_eq_self`: members are dropped only where some are repeated.
* `distinct_append`: of a second part the members that the first does not have are added.
* `distinct_filter`: choosing members and dropping repetitions may change places.
* `foldl_collect`: the loop has gathered the distinct members of what it has passed.
-/

namespace TreeSelect

variable {α : Type} [DecidableEq α]

/-- The members of a list in the order of their first occurrences, each once. -/
def distinct : List α → List α
  | [] => []
  | a :: rest => a :: (distinct rest).filter fun b => b != a

/-- Dropping repetitions keeps the members. -/
@[simp] theorem mem_distinct {a : α} {l : List α} : a ∈ distinct l ↔ a ∈ l := by
  induction l with
  | nil => rfl
  | cons b rest ih =>
    by_cases h : a = b <;> simp [distinct, h, ih]

/-- Nothing is repeated. -/
theorem nodup_distinct (l : List α) : (distinct l).Nodup := by
  induction l with
  | nil => exact List.nodup_nil
  | cons a rest ih =>
    exact List.nodup_cons.2 ⟨by simp, ih.filter _⟩

/-- What is left stands in the order of the list. -/
theorem distinct_sublist (l : List α) : (distinct l).Sublist l := by
  induction l with
  | nil => exact .slnil
  | cons a rest ih => exact (List.filter_sublist.trans ih).cons_cons a

/-- From a list without repetitions nothing is dropped. -/
theorem distinct_eq_self {l : List α} (h : l.Nodup) : distinct l = l := by
  induction l with
  | nil => rfl
  | cons a rest ih =>
    obtain ⟨ha, hrest⟩ := List.nodup_cons.1 h
    have hother : ∀ b ∈ rest, (b != a) = true := by
      intro b hb
      exact bne_iff_ne.2 fun hsame => ha (hsame ▸ hb)
    rw [distinct, ih hrest, List.filter_eq_self.2 hother]

/-- Repetitions may be dropped after the members are chosen, or before. -/
theorem distinct_filter (p : α → Bool) (l : List α) :
    distinct (l.filter p) = (distinct l).filter p := by
  induction l with
  | nil => rfl
  | cons a rest ih =>
    cases ha : p a with
    | true =>
      simp only [List.filter_cons_of_pos ha, distinct, ih, List.filter_filter, Bool.and_comm]
    | false =>
      -- what is dropped with the head does not pass anyway
      have hne : ∀ b ∈ distinct rest, (p b && b != a) = p b := by
        intro b _
        by_cases hb : b = a
        · simp [hb, ha]
        · simp [hb]
      simp only [List.filter_cons, ha, Bool.false_eq_true, if_false, distinct, ih,
        List.filter_filter]
      exact (List.filter_congr hne).symm

/-- Dropping repetitions from a list of two parts adds to the first part what is new in the
second. -/
theorem distinct_append (first second : List α) :
    distinct (first ++ second) =
      distinct first ++ (distinct second).filter fun b => !first.contains b := by
  induction first with
  | nil => exact (List.filter_eq_self.2 fun _ _ => rfl).symm
  | cons a rest ih =>
    have hnew : ∀ b ∈ distinct second,
        (b != a && !rest.contains b) = !(a :: rest).contains b := by
      intro b _
      rw [List.contains_cons, Bool.not_or]
      rfl
    rw [List.cons_append, distinct, distinct, ih, List.filter_append, List.filter_filter,
      List.filter_congr hnew, List.cons_append]

/-! ### Members one after the other -/

variable {a : α} {l : List α}

/-- A member that is repeated at the end is dropped. -/
theorem distinct_append_singleton_of_mem (h : a ∈ l) : distinct (l ++ [a]) = distinct l := by
  simp [distinct_append, distinct, h]

/-- A member that is new at the end is kept. -/
theorem distinct_append_singleton_of_notMem (h : a ∉ l) :
    distinct (l ++ [a]) = distinct l ++ [a] := by
  simp [distinct_append, distinct, h]

/-- One step of a loop that gathers the members of a list: a member that has not been seen is added
at the end. -/
def collect (seen : List α) (a : α) : List α :=
  if a ∈ seen then seen else seen ++ [a]

/-- The step keeps what has been seen distinct. -/
theorem distinct_append_singleton (l : List α) (a : α) :
    distinct (l ++ [a]) = collect (distinct l) a := by
  by_cases h : a ∈ l
  · rw [distinct_append_singleton_of_mem h, collect, if_pos (mem_distinct.2 h)]
  · have hseen : a ∉ distinct l := fun hmem => h (mem_distinct.1 hmem)
    rw [distinct_append_singleton_of_notMem h, collect, if_neg hseen]

/-- **The loop gathers the distinct members.** Begun with those of a first part, it ends with those
of the whole list. -/
theorem foldl_collect (first rest : List α) :
    rest.foldl collect (distinct first) = distinct (first ++ rest) := by
  induction rest generalizing first with
  | nil => rw [List.append_nil, List.foldl_nil]
  | cons a rest ih =>
    rw [List.foldl_cons, ← distinct_append_singleton, ih, List.append_assoc, List.singleton_append]

end TreeSelect
