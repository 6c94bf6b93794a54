import Mathlib.Data.List.Basic
import TreeSelect.Selector.Token
/-!
# Runs of characters

Where the longest run of characters that pass a test ends. A reader takes such a run with
`takeWhile` and goes on with `dropWhile`; these lemmas find the run again when the text is known as
a run and something on which it ends.

## Main definitions

* `Text.Stops`: a text on which a run ends.

## Main statements

* `Cursor.run_append`, `Cursor.skip_append`: a known run is read as it is known.
* `Text.exists_trim`, `Text.trim_eq_self`: what trimming leaves.
-/

namespace TreeSelect

/-- The first character of a text, if it has one, fails a test, so a run of the test ends there. -/
def Text.Stops (p : Char → Bool) (t : Text) : Prop :=
  ∀ c ∈ t.head?, p c = false

namespace Text.Stops

variable {p q : Char → Bool} {t r : Text}

/-- A run ends at the end of the text. -/
theorem nil : Stops p [] :=
  fun _ hc => by cases hc

/-- A run ends before a character that fails the test. -/
theorem cons {c : Char} (h : p c = false) : Stops p (c :: t) := by
  rintro d hd
  cases hd
  exact h

/-- The first character of a text on which a run ends fails the test. -/
theorem of_cons {c : Char} (h : Stops p (c :: t)) : p c = false :=
  h c rfl

/-- Whether a run ends on a text can be told from its front. -/
theorem of_append (h : Stops p (t ++ r)) : Stops p t := by
  cases t with
  | nil => exact nil
  | cons c t => exact cons h.of_cons

/-- A run ends on a join if it ends on both parts. -/
theorem append (ht : Stops p t) (hr : Stops p r) : Stops p (t ++ r) := by
  cases t with
  | nil => exact hr
  | cons c t => exact cons ht.of_cons

/-- A run ends on a join if it ends on its front, which has a character. -/
theorem append_of_ne_nil (ht : Stops p t) (hne : t ≠ []) : Stops p (t ++ r) := by
  cases t with
  | nil => exact absurd rfl hne
  | cons c t => exact cons ht.of_cons

/-- A run ends on a text all of whose characters fail the test. -/
theorem of_forall (h : ∀ c ∈ t, p c = false) : Stops p t :=
  fun c hc => h c (List.mem_of_mem_head? hc)

/-- Behind a run the run is over. -/
theorem dropWhile (p : Char → Bool) (t : Text) : Stops p (t.dropWhile p) := by
  intro c hc
  have h := List.head?_dropWhile_not p t
  rw [Option.mem_def.mp hc] at h
  exact h

/-- No run starts where a run ends. -/
theorem takeWhile_eq_nil (h : Stops p t) : t.takeWhile p = [] := by
  cases t with
  | nil => rfl
  | cons c t => simp [h.of_cons]

/-- Nothing is dropped where a run ends. -/
theorem dropWhile_eq_self (h : Stops p t) : t.dropWhile p = t := by
  cases t with
  | nil => rfl
  | cons c t => simp [h.of_cons]

end Text.Stops

namespace Cursor

variable {p : Char → Bool} {o : Nat} {w t : Text}

/-- A run is the whole of what passes the test. -/
theorem run_append (hw : ∀ c ∈ w, p c = true) (ht : t.Stops p) : run ⟨o, w ++ t⟩ p = w := by
  rw [run, List.takeWhile_append_of_pos hw, ht.takeWhile_eq_nil, List.append_nil]

/-- Skipping leads behind the whole of what passes the test. -/
theorem skip_append (hw : ∀ c ∈ w, p c = true) (ht : t.Stops p) :
    skip ⟨o, w ++ t⟩ p = ⟨o + w.length, t⟩ := by
  rw [skip, run_append hw ht, List.dropWhile_append_of_pos hw, ht.dropWhile_eq_self]

/-- What is ahead is a run of what passes the test, and then the run is over. -/
theorem exists_run (c : Cursor) (p : Char → Bool) :
    c.rest = c.run p ++ (c.skip p).rest ∧ (∀ x ∈ c.run p, p x = true) ∧
      (c.skip p).rest.Stops p :=
  ⟨(c.run_append_rest_skip p).symm, c.all_run p, Text.Stops.dropWhile p c.rest⟩

/-- What is ahead is a run of space, and then the space is over. -/
theorem exists_space (c : Cursor) :
    c.rest = c.run Text.isSpace ++ c.skipSpace.rest ∧
      (∀ x ∈ c.run Text.isSpace, Text.isSpace x = true) ∧ c.skipSpace.rest.Stops Text.isSpace :=
  c.exists_run Text.isSpace

end Cursor

/-! ### Blanks at the ends -/

/-- Trimming the end drops the blanks there and nothing before them. -/
theorem Text.trimEnd_append {v blanks : Text} (last : ∀ c ∈ v.getLast?, isBlank c = false)
    (after : ∀ c ∈ blanks, isBlank c = true) : Text.trimEnd (v ++ blanks) = v := by
  have hlast : Stops isBlank v.reverse := by
    intro c hc
    rw [List.head?_reverse] at hc
    exact last c hc
  have hafter : ∀ c ∈ blanks.reverse, isBlank c = true := fun c hc =>
    after c (List.mem_reverse.mp hc)
  rw [trimEnd, List.reverse_append, List.dropWhile_append_of_pos hafter, hlast.dropWhile_eq_self,
    List.reverse_reverse]

/-- A text is its trimmed form and some blanks behind it. -/
theorem Text.exists_trimEnd (t : Text) :
    ∃ blanks, t = t.trimEnd ++ blanks ∧ (∀ c ∈ t.trimEnd.getLast?, isBlank c = false) ∧
      ∀ c ∈ blanks, isBlank c = true := by
  refine ⟨(t.reverse.takeWhile isBlank).reverse, ?_, ?_, ?_⟩
  · rw [trimEnd, ← List.reverse_append, List.takeWhile_append_dropWhile, List.reverse_reverse]
  · intro c hc
    rw [trimEnd, List.getLast?_reverse] at hc
    exact Text.Stops.dropWhile isBlank t.reverse c hc
  · intro c hc
    exact List.all_eq_true.mp List.all_takeWhile c (List.mem_reverse.mp hc)

/-- A text is its trimmed form with blanks before and behind it. -/
theorem Text.exists_trim (t : Text) :
    ∃ before after, t = before ++ (t.trim ++ after) ∧ (∀ c ∈ before, isBlank c = true) ∧
      (∀ c ∈ after, isBlank c = true) ∧ t.trim.Stops isBlank ∧
        ∀ c ∈ t.trim.getLast?, isBlank c = false := by
  obtain ⟨after, hsplit, hlast, hafter⟩ := exists_trimEnd (t.dropWhile isBlank)
  have hstops := Stops.dropWhile isBlank t
  refine ⟨t.takeWhile isBlank, after, ?_, List.all_eq_true.mp List.all_takeWhile, hafter, ?_, hlast⟩
  · rw [trim, ← hsplit, List.takeWhile_append_dropWhile]
  · rw [hsplit] at hstops
    exact hstops.of_append

/-- Trimming takes off nothing but blanks. -/
theorem Text.mem_trim_iff {t : Text} {c : Char} (hc : isBlank c = false) : c ∈ t.trim ↔ c ∈ t := by
  obtain ⟨before, after, hsplit, hbefore, hafter, -, -⟩ := exists_trim t
  have hnot : ∀ g : Text, (∀ d ∈ g, isBlank d = true) → c ∉ g := by
    intro g hg hmem
    rw [hg c hmem] at hc
    cases hc
  constructor
  · intro hmem
    rw [hsplit]
    simp [hmem]
  · intro hmem
    rw [hsplit] at hmem
    simpa [hnot before hbefore, hnot after hafter] using hmem

/-- A text that starts with no blank is trimmed at its end only. -/
theorem Text.trim_eq_trimEnd {t : Text} (h : t.Stops isBlank) : t.trim = t.trimEnd := by
  rw [trim, h.dropWhile_eq_self]

/-- A text without blanks at its ends is trimmed. -/
theorem Text.trim_eq_self {t : Text} (h : t.Stops isBlank)
    (hlast : ∀ c ∈ t.getLast?, isBlank c = false) : t.trim = t := by
  have hend := trimEnd_append hlast (List.forall_mem_nil _)
  rw [List.append_nil] at hend
  rw [trim_eq_trimEnd h, hend]

/-- A blank before a text is trimmed off. -/
theorem Text.trim_cons_of_isBlank {c : Char} (h : isBlank c = true) (t : Text) :
    Text.trim (c :: t) = Text.trim t := by
  simp [trim, h]

end TreeSelect
