import Mathlib.Data.List.Induction
import Mathlib.Data.List.TakeWhile
import TreeSelect.Proofs.Selector.Runs
import TreeSelect.Selector.Parser
/-!
# Where a text is cut

The scan for separating commas leaves the top of a text at an opener and comes back to it, or does
not. So every text has one closed front, behind which the scan is at the top, and one open end, in
which it never is. The first comma at the top of the closed front ends the first clause; where the
front has none, the first comma of the open end does.

## Main definitions

* `Nesting.after`: the nesting behind a text.
* `Nesting.StaysInside`: a text in which the top is never reached.

## Main statements

* `Clause.exists_open_end`: every text has a closed front and an open end.
* `Clause.firstEnd?_append`: where the first clause ends, read off both parts.
* `Clause.exists_of_firstEnd?`: a clause is cut off right before a comma, and it is not cut again.
* `Clause.pieces_induction`: induction along the pieces of a text.
* `Clause.head?_pieces_append_comma_iff`: when a comma ends a text that has none.
-/

namespace TreeSelect

namespace Nesting

/-- The nesting behind a text. -/
def after (n : Nesting) (t : Text) : Nesting :=
  t.foldl step n

/-- Behind each character of a text the scan is inside a bracket or a quote. -/
def StaysInside : Nesting → Text → Prop
  | _, [] => True
  | n, c :: t => (n.step c).isTop = false ∧ StaysInside (n.step c) t

/-- Nothing changes behind the empty text. -/
@[simp] theorem after_nil (n : Nesting) : n.after [] = n := rfl

/-- The scan goes on behind the first character. -/
@[simp] theorem after_cons (n : Nesting) (c : Char) (t : Text) :
    n.after (c :: t) = (n.step c).after t := rfl

/-- The scan of a join goes on behind the first part. -/
@[simp] theorem after_append (n : Nesting) (s t : Text) :
    n.after (s ++ t) = (n.after s).after t :=
  List.foldl_append

/-- The top is one nesting only. -/
theorem isTop_iff {n : Nesting} : n.isTop = true ↔ n = {} := by
  obtain ⟨depth, quote⟩ := n
  simp [isTop]

/-- A join stays inside exactly if both parts do. -/
theorem staysInside_append {n : Nesting} {s t : Text} :
    n.StaysInside (s ++ t) ↔ n.StaysInside s ∧ (n.after s).StaysInside t := by
  induction s generalizing n with
  | nil => simp [StaysInside]
  | cons c s ih => simp [StaysInside, ih, and_assoc]

/-- Behind a text that stays inside the scan is inside. -/
theorem StaysInside.isTop_after {n : Nesting} {t : Text} (h : n.StaysInside t)
    (hn : n.isTop = false) : (n.after t).isTop = false := by
  induction t generalizing n with
  | nil => exact hn
  | cons c t ih => exact ih h.2 h.1

/-- The first character that leaves the top is no comma. -/
theorem step_comma (n : Nesting) : n.isTop = true → (n.step ',').isTop = true := by
  intro h
  rw [isTop_iff.mp h]
  decide

end Nesting

namespace Clause

open Nesting

/-! ### Commas at the top -/

/-- The commas of a join are those of its first part, then those of its second. -/
theorem commaFrom?_append (n : Nesting) (i : Nat) (s t : Text) :
    commaFrom? n i (s ++ t) = (commaFrom? n i s).or (commaFrom? (n.after s) (i + s.length) t) := by
  induction s generalizing n i with
  | nil => simp [commaFrom?]
  | cons c s ih =>
      simp only [List.cons_append, commaFrom?, List.length_cons, after_cons]
      split
      · rfl
      · rw [ih]
        congr 2
        omega

/-- Whether a comma is found does not depend on where the count starts. -/
theorem commaFrom?_eq_none {n : Nesting} {t : Text} (i j : Nat) (h : commaFrom? n i t = none) :
    commaFrom? n j t = none := by
  induction t generalizing n i j with
  | nil => rfl
  | cons c t ih =>
      simp only [commaFrom?] at h ⊢
      split at h
      · cases h
      · rename_i hnot
        rw [if_neg hnot]
        exact ih (i + 1) (j + 1) h

/-- No comma stands at the top of a text that stays inside. -/
theorem commaFrom?_of_staysInside {n : Nesting} {t : Text} (h : n.StaysInside t) (i : Nat) :
    commaFrom? n i t = none := by
  induction t generalizing n i with
  | nil => rfl
  | cons c t ih =>
      have hnot : ¬ ((c == ',' && n.isTop) = true) := by
        rw [Bool.and_eq_true, beq_iff_eq]
        rintro ⟨rfl, htop⟩
        have hinside := h.1
        rw [step_comma n htop] at hinside
        cases hinside
      rw [commaFrom?, if_neg hnot]
      exact ih h.2 (i + 1)

/-- Before the first comma at the top stands a text without one, behind which the scan is at the
top. -/
theorem exists_of_commaFrom? {n : Nesting} {i k : Nat} {t : Text}
    (h : commaFrom? n i t = some k) :
    ∃ s r, t = s ++ ',' :: r ∧ k = i + s.length ∧ n.after s = {} ∧
      ∀ j, commaFrom? n j s = none := by
  induction t generalizing n i with
  | nil => cases h
  | cons c t ih =>
      simp only [commaFrom?] at h
      split at h
      · rename_i hcomma
        cases h
        rw [Bool.and_eq_true, beq_iff_eq] at hcomma
        obtain ⟨rfl, htop⟩ := hcomma
        exact ⟨[], t, rfl, rfl, isTop_iff.mp htop, fun _ => rfl⟩
      · rename_i hnot
        obtain ⟨s, r, rfl, rfl, hafter, hnone⟩ := ih h
        refine ⟨c :: s, r, rfl, by simp only [List.length_cons]; omega, hafter, fun j => ?_⟩
        rw [commaFrom?, if_neg hnot]
        exact hnone (j + 1)

/-! ### The open end -/

/-- Every text has a closed front, behind which the scan is at the top, and an open end, in which
it never is. -/
theorem exists_open_end (t : Text) :
    ∃ front back, t = front ++ back ∧ after {} front = {} ∧ StaysInside {} back := by
  induction t using List.reverseRecOn with
  | nil => exact ⟨[], [], rfl, rfl, trivial⟩
  | append_singleton t c ih =>
      obtain ⟨front, back, rfl, hfront, hback⟩ := ih
      cases htop : (after {} (back ++ [c])).isTop with
      | true =>
          refine ⟨front ++ (back ++ [c]), [], by simp, ?_, trivial⟩
          rw [after_append, hfront, isTop_iff.mp htop]
      | false =>
          refine ⟨front, back ++ [c], by simp, hfront, staysInside_append.mpr ⟨hback, ?_, trivial⟩⟩
          simpa using htop

/-- A closed front leaves no opener behind. -/
theorem unclosedFrom?_append {n : Nesting} {opened : Option Text} {front : Text}
    (hfront : n.after front = {}) (hopened : front = [] → opened = none) (back : Text) :
    unclosedFrom? n opened (front ++ back) = unclosedFrom? {} none back := by
  induction front generalizing n opened with
  | nil =>
      obtain rfl : n = {} := hfront
      rw [hopened rfl, List.nil_append]
  | cons c front ih =>
      refine ih hfront fun hnil => ?_
      have htop : n.step c = {} := by simpa [hnil] using hfront
      simp [htop, isTop]

/-- A text that stays inside changes nothing about the opener. -/
theorem unclosedFrom?_of_staysInside {n : Nesting} {opened : Option Text} {t : Text}
    (h : n.StaysInside t) (hn : n.isTop = false) : unclosedFrom? n opened t = opened := by
  induction t generalizing n opened with
  | nil => rfl
  | cons c t ih =>
      rw [unclosedFrom?, ih h.2 h.1]
      simp [h.1, hn]

/-- What is never closed is the open end. -/
theorem unclosed?_append {front back : Text} (hfront : after {} front = {})
    (hback : StaysInside {} back) :
    unclosed? (front ++ back) = if back = [] then none else some back := by
  rw [unclosed?, unclosedFrom?_append hfront (fun _ => rfl)]
  cases back with
  | nil => rfl
  | cons c back =>
      rw [unclosedFrom?, unclosedFrom?_of_staysInside hback.2 hback.1]
      have htop : isTop {} = true := rfl
      simp [hback.1, htop]

/-- **Where the first clause ends**: at the first comma at the top of the closed front, else at the
first comma of the open end. -/
theorem firstEnd?_append {front back : Text} (hfront : after {} front = {})
    (hback : StaysInside {} back) :
    firstEnd? (front ++ back) =
      (commaAt? front).or
        (if ',' ∈ back then some (front.length + (back.takeWhile (· != ',')).length)
          else none) := by
  have hcomma : commaAt? (front ++ back) = commaAt? front := by
    rw [commaAt?, commaFrom?_append, hfront, commaFrom?_of_staysInside hback, Option.or_none,
      commaAt?]
  rw [firstEnd?, hcomma, unclosed?_append hfront hback]
  cases commaAt? front with
  | some k => rfl
  | none =>
      cases back with
      | nil => rfl
      | cons c back =>
          generalize hopen : c :: back = opened
          have hne : opened ≠ [] := by simp [← hopen]
          have hlength := congrArg List.length
            (List.takeWhile_append_dropWhile (p := (· != ',')) (l := opened))
          rw [List.length_append] at hlength
          by_cases hmem : ',' ∈ opened
          · have hbehind : opened.dropWhile (· != ',') ≠ [] := by
              rw [Ne, Text.dropWhile_eq_nil_iff_all]
              intro hall
              simpa using hall ',' hmem
            simp only [hne, if_false, List.isEmpty_iff, hbehind, hmem, if_true, Option.none_or,
              List.length_append, Option.some.injEq]
            omega
          · have hbehind : opened.dropWhile (· != ',') = [] := by
              rw [Text.dropWhile_eq_nil_iff_all]
              intro d hd
              rw [bne_iff_ne]
              rintro rfl
              exact hmem hd
            simp [hne, hbehind, hmem]

/-- A text is one clause exactly if neither its closed front nor its open end has a comma that
could end one. -/
theorem firstEnd?_eq_none_iff {front back : Text} (hfront : after {} front = {})
    (hback : StaysInside {} back) :
    firstEnd? (front ++ back) = none ↔ commaAt? front = none ∧ ',' ∉ back := by
  rw [firstEnd?_append hfront hback]
  simp

/-- What stands before the first comma of a text is found again. -/
theorem takeWhile_append_comma {s r : Text} (hs : ',' ∉ s) :
    (s ++ ',' :: r).takeWhile (· != ',') = s := by
  have hall : ∀ c ∈ s, (c != ',') = true := by
    intro c hc
    rw [bne_iff_ne]
    rintro rfl
    exact hs hc
  have hstop : Text.Stops (· != ',') (',' :: r) := .cons (by simp)
  rw [List.takeWhile_append_of_pos hall, hstop.takeWhile_eq_nil, List.append_nil]

/-- **A clause is cut off right before a comma, and it is not cut again.** -/
theorem exists_of_firstEnd? {t : Text} {k : Nat} (h : firstEnd? t = some k) :
    ∃ s r, t = s ++ ',' :: r ∧ k = s.length ∧ firstEnd? s = none := by
  obtain ⟨front, back, rfl, hfront, hback⟩ := exists_open_end t
  rw [firstEnd?_append hfront hback, Option.or_eq_some_iff] at h
  rcases h with h | ⟨hnone, h⟩
  · obtain ⟨s, r, rfl, rfl, hs, hnone⟩ := exists_of_commaFrom? h
    have hend : StaysInside {} [] := trivial
    refine ⟨s, r ++ back, by simp, by simp, ?_⟩
    rw [← List.append_nil s, firstEnd?_eq_none_iff hs hend]
    exact ⟨hnone 0, by simp⟩
  · split at h
    · rename_i hmem
      cases h
      obtain ⟨before, behind, rfl, hnot⟩ := List.eq_append_cons_of_mem hmem
      rw [takeWhile_append_comma hnot]
      refine ⟨front ++ before, behind, by simp, by simp, ?_⟩
      rw [firstEnd?_eq_none_iff hfront (staysInside_append.mp hback).1]
      exact ⟨hnone, hnot⟩
    · cases h

/-- A text without a comma is one clause. -/
theorem firstEnd?_eq_none_of_notMem {m : Text} (hm : ',' ∉ m) : firstEnd? m = none := by
  cases hend : firstEnd? m with
  | none => rfl
  | some k =>
      obtain ⟨s, r, rfl, -, -⟩ := exists_of_firstEnd? hend
      exact absurd (by simp) hm

/-- A text that is one clause is ended by a comma behind it, unless the comma stands in its open end
and more of the end behind the comma. -/
theorem firstEnd?_append_comma {front back r : Text} (hfront : after {} front = {})
    (hnone : commaAt? front = none) (hnot : ',' ∉ back)
    (hback : back = [] ∨ StaysInside {} (back ++ ',' :: r)) :
    firstEnd? (front ++ back ++ ',' :: r) = some (front ++ back).length := by
  rcases hback with rfl | hback
  · have htop : isTop {} = true := rfl
    have hcomma : commaAt? (front ++ [] ++ ',' :: r) = some (front ++ []).length := by
      rw [List.append_nil, commaAt?, commaFrom?_append, hfront, ← commaAt?, hnone]
      simp [commaFrom?, htop]
    rw [firstEnd?, hcomma]
  · rw [List.append_assoc, firstEnd?_append hfront hback, hnone, Option.none_or,
      takeWhile_append_comma hnot]
    simp

/-- **Which comma ends a text without commas.** A comma behind such a text ends it exactly if the
scan is at the top there, or never comes back to the top from there on. -/
theorem firstEnd?_append_comma_iff {m r : Text} (hm : ',' ∉ m) :
    firstEnd? (m ++ ',' :: r) = some m.length ↔
      (after {} m).isTop = true ∨ StaysInside (after {} m) (',' :: r) := by
  constructor
  · intro hend
    obtain ⟨front, back, hsplit, hfront, hback⟩ := exists_open_end (m ++ ',' :: r)
    rw [hsplit, firstEnd?_append hfront hback, Option.or_eq_some_iff] at hend
    rcases hend with hcomma | ⟨-, hcomma⟩
    · obtain ⟨s, r', rfl, hlength, hs, -⟩ := exists_of_commaFrom? hcomma
      rw [List.append_assoc] at hsplit
      obtain ⟨rfl, -⟩ := List.append_inj hsplit (by simpa using hlength)
      exact .inl (isTop_iff.mpr hs)
    · split at hcomma
      · rename_i hmem
        obtain ⟨before, behind, rfl, hnot⟩ := List.eq_append_cons_of_mem hmem
        rw [takeWhile_append_comma hnot, Option.some.injEq] at hcomma
        rw [← List.append_assoc] at hsplit
        obtain ⟨rfl, hrest⟩ := List.append_inj hsplit (by simpa using hcomma.symm)
        rw [after_append, hfront, hrest]
        exact .inr (staysInside_append.mp hback).2
      · cases hcomma
  · intro hcases
    obtain ⟨front, back, rfl, hfront, hback⟩ := exists_open_end m
    have hend := (firstEnd?_eq_none_iff hfront hback).mp (firstEnd?_eq_none_of_notMem hm)
    rw [after_append, hfront] at hcases
    refine firstEnd?_append_comma hfront hend.1 hend.2 ?_
    rcases hcases with htop | hinside
    · refine .inl ?_
      cases back with
      | nil => rfl
      | cons c back =>
          have hopen := hback.2.isTop_after hback.1
          rw [← after_cons, htop] at hopen
          cases hopen
    · exact .inr (staysInside_append.mpr ⟨hback, hinside⟩)

/-! ### The list of clauses -/

/-- A text that is one clause is the only piece. -/
theorem pieces_of_firstEnd?_eq_none {t : Text} (h : firstEnd? t = none) :
    pieces t = [Text.trim t] := by
  rw [pieces]
  split
  · rfl
  · rename_i hend
    rw [h] at hend
    cases hend

/-- The first clause is the first piece. -/
theorem pieces_of_firstEnd?_eq_some {t : Text} {k : Nat} (h : firstEnd? t = some k) :
    pieces t = Text.trim (t.take k) :: pieces (t.drop (k + 1)) := by
  rw [pieces]
  split
  · rename_i hend
    rw [h] at hend
    cases hend
  · rename_i hend
    rw [h] at hend
    cases hend
    rfl

/-- Every text has a piece. -/
theorem pieces_ne_nil (t : Text) : pieces t ≠ [] := by
  rw [pieces]
  split <;> simp

/-- What a comma ends is the first piece. -/
theorem pieces_append_comma {s r : Text} (h : firstEnd? (s ++ ',' :: r) = some s.length) :
    pieces (s ++ ',' :: r) = Text.trim s :: pieces r := by
  have hdrop : (s ++ ',' :: r).drop (s.length + 1) = r := by simp
  rw [pieces_of_firstEnd?_eq_some h, List.take_left, hdrop]

/-- **Induction along the pieces of a text**: it is one clause, or it is its first clause, a comma
and a text that has the other pieces. -/
@[elab_as_elim]
theorem pieces_induction {motive : Text → Prop}
    (single : ∀ t, firstEnd? t = none → motive t)
    (cons : ∀ s r, firstEnd? s = none → firstEnd? (s ++ ',' :: r) = some s.length → motive r →
      motive (s ++ ',' :: r)) (t : Text) : motive t := by
  induction hlength : t.length using Nat.strongRecOn generalizing t with
  | ind length ih =>
      cases hend : firstEnd? t with
      | none => exact single t hend
      | some k =>
          obtain ⟨s, r, rfl, rfl, hs⟩ := exists_of_firstEnd? hend
          refine cons s r hs hend (ih r.length ?_ r rfl)
          rw [← hlength, List.length_append, List.length_cons]
          omega

/-- Each piece is what trimming leaves of a text that is one clause. -/
theorem exists_of_mem_pieces {t clause : Text} (h : clause ∈ pieces t) :
    ∃ u, clause = Text.trim u ∧ firstEnd? u = none := by
  induction t using pieces_induction with
  | single t hend =>
      rw [pieces_of_firstEnd?_eq_none hend, List.mem_singleton] at h
      exact ⟨t, h, hend⟩
  | cons s r hs hend ih =>
      rw [pieces_append_comma hend] at h
      rcases List.mem_cons.mp h with rfl | h
      · exact ⟨s, rfl, hs⟩
      · exact ih h

/-- Each clause of a text is what trimming leaves of a text that is one clause. -/
theorem exists_of_mem_split {t clause : Text} (h : clause ∈ split t) :
    ∃ u, clause = Text.trim u ∧ firstEnd? u = none := by
  rw [split] at h
  split at h
  · cases h
  · exact exists_of_mem_pieces h

/-- A text that is not blank throughout has its pieces for clauses. -/
theorem split_eq_pieces {t : Text} (h : t.trim ≠ []) : split t = pieces t := by
  rw [split, if_neg]
  rwa [List.all_eq_true, ← Text.trim_eq_nil_iff]

/-- **What comes off at a comma.** A text without commas is the first piece of a longer text in
which a comma stands behind it exactly if the scan is at the top there, or never comes back to the
top from there on. -/
theorem head?_pieces_append_comma_iff {m r : Text} (hm : ',' ∉ m) :
    (pieces (m ++ ',' :: r)).head? = some (Text.trim m) ↔
      (after {} m).isTop = true ∨ StaysInside (after {} m) (',' :: r) := by
  rw [← firstEnd?_append_comma_iff hm]
  -- a longer first piece holds the comma, which no trimming takes off
  have hlonger : ∀ {s : Text}, ',' ∈ s → Text.trim s ≠ Text.trim m := by
    intro s hs heq
    refine hm ((Text.mem_trim_iff (by decide)).mp ?_)
    rw [← heq]
    exact (Text.mem_trim_iff (by decide)).mpr hs
  cases hend : firstEnd? (m ++ ',' :: r) with
  | none => simp [pieces_of_firstEnd?_eq_none hend, hlonger]
  | some k =>
      obtain ⟨s, r', hsplit, rfl, -⟩ := exists_of_firstEnd? hend
      rw [hsplit] at hend ⊢
      rw [pieces_append_comma hend, List.head?_cons, Option.some.injEq, Option.some.injEq]
      obtain ⟨x, rfl, hx⟩ | ⟨x, rfl, hx⟩ := List.append_eq_append_iff.mp hsplit
      · cases x with
        | nil => simp
        | cons c x =>
            obtain ⟨rfl, -⟩ := List.cons.inj hx
            simp [hlonger]
      · cases x with
        | nil => simp
        | cons c x =>
            obtain ⟨rfl, -⟩ := List.cons.inj hx
            exact absurd (by simp) hm

end Clause

end TreeSelect
