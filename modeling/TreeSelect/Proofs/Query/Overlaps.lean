import TreeSelect.Query.Session
/-!
# Warnings that read the same

A warning is recognised by its text `[component] message`, and that text does not show where the
component ends: `[A] B] c` is what `A] B` says with `c`, and what `A` says with `B] c`. Of two such
warnings only the first is issued. So a run of calls does not go by warnings but by their texts, and
the two come to the same exactly as long as no call is about a warning that overlaps one given
before.

## Main definitions

* `Warning.Overlaps`, `Warning.ReadsLike`: when two warnings have one text.
* `Warnings.Call`, `Warnings.Outcome`, `Warnings.outcomes`: runs of calls and what comes of them.
* `Warnings.outcomesBy`: what should come of them if given warnings are the same.
* `Warnings.KeptApart`: a run in which no two warnings overlap.

## Main statements

* `Warning.key_eq_iff`: which warnings have one text.
* `Warnings.outcomes_by_text`: **a run goes by the texts of the warnings**, and by the warnings
  themselves just if these are kept apart.
-/

namespace TreeSelect

/-! ### Two warnings -/

namespace Warning

/-- A warning overlaps another if its component goes on behind the component of the other: with a
separator and what the other's message begins with, up to a separator behind which the message is
its own. -/
def Overlaps (w other : Warning) : Prop :=
  ∃ middle, w.component = other.component ++ [']', ' '] ++ middle ∧
    other.message = middle ++ [']', ' '] ++ w.message

/-- Two warnings read the same if they are the same or one overlaps the other. -/
def ReadsLike (w other : Warning) : Prop :=
  w = other ∨ w.Overlaps other ∨ other.Overlaps w

/-- What stands before a separator is nothing, or it begins with a separator itself: two separators
cannot share a character. -/
theorem separator_eq_append_iff {front rest rest' : Text} :
    [']', ' '] ++ rest = front ++ ([']', ' '] ++ rest') ↔
      front = [] ∧ rest = rest' ∨
        ∃ middle, front = [']', ' '] ++ middle ∧ rest = middle ++ [']', ' '] ++ rest' := by
  match front with
  | [] => simp
  | [a] => simp
  | a :: b :: middle => simp [and_assoc, eq_comm]

/-- Warnings that overlap have one text. -/
theorem Overlaps.key_eq {w other : Warning} (h : w.Overlaps other) : w.key = other.key := by
  obtain ⟨middle, hcomponent, hmessage⟩ := h
  simp [key, hcomponent, hmessage]

/-- A warning that overlaps another has a closing bracket in its component. -/
theorem Overlaps.bracket_mem {w other : Warning} (h : w.Overlaps other) : ']' ∈ w.component := by
  obtain ⟨middle, hcomponent, -⟩ := h
  simp [hcomponent]

/-- Of two warnings with one text, one is the other or overlaps it if its component is the longer
one. -/
theorem eq_or_overlaps_of_append {w other : Warning} {front : Text}
    (hcomponent : w.component = other.component ++ front)
    (hrest : [']', ' '] ++ other.message = front ++ ([']', ' '] ++ w.message)) :
    w = other ∨ w.Overlaps other := by
  rcases separator_eq_append_iff.mp hrest with ⟨rfl, hmessage⟩ | ⟨middle, rfl, hmessage⟩
  · left
    obtain ⟨component, message⟩ := w
    obtain ⟨component', message'⟩ := other
    obtain rfl : component = component' := hcomponent.trans (List.append_nil _)
    obtain rfl : message' = message := hmessage
    rfl
  · right
    exact ⟨middle, hcomponent.trans (List.append_assoc _ _ _).symm, hmessage⟩

/-- **Two warnings have one text just if they read the same.** -/
theorem key_eq_iff {w other : Warning} : w.key = other.key ↔ w.ReadsLike other := by
  constructor
  · intro hkey
    have hjoined : w.component ++ ([']', ' '] ++ w.message) =
        other.component ++ ([']', ' '] ++ other.message) := by
      simpa [key] using hkey
    rcases List.append_eq_append_iff.mp hjoined with
      ⟨front, hcomponent, hrest⟩ | ⟨front, hcomponent, hrest⟩
    · rcases eq_or_overlaps_of_append hcomponent hrest with heq | hover
      · exact .inl heq.symm
      · exact .inr (.inr hover)
    · exact (eq_or_overlaps_of_append hcomponent hrest).imp_right .inl
  · rintro (rfl | hover | hover)
    · rfl
    · exact hover.key_eq
    · exact hover.key_eq.symm

/-- Reading the same goes both ways. -/
theorem ReadsLike.symm {w other : Warning} (h : w.ReadsLike other) : other.ReadsLike w :=
  key_eq_iff.mp (key_eq_iff.mpr h).symm

instance : DecidableRel ReadsLike :=
  fun _ _ => decidable_of_iff _ key_eq_iff

/-- A warning does not overlap itself. -/
theorem not_overlaps_self (w : Warning) : ¬w.Overlaps w := by
  rintro ⟨middle, hcomponent, -⟩
  have hlength := congrArg List.length hcomponent
  simp only [List.length_append, List.length_cons, List.length_nil] at hlength
  omega

/-- Warnings that are kept apart are the same once they read the same. -/
theorem eq_of_readsLike_iff {w other : Warning} :
    (w.ReadsLike other → w = other) ↔ ¬w.Overlaps other ∧ ¬other.Overlaps w := by
  constructor
  · intro h
    constructor <;> intro hover
    · obtain rfl := h (.inr (.inl hover))
      exact w.not_overlaps_self hover
    · obtain rfl := h (.inr (.inr hover))
      exact w.not_overlaps_self hover
  · rintro ⟨hforth, hback⟩ (heq | hover | hover)
    · exact heq
    · exact absurd hover hforth
    · exact absurd hover hback

end Warning

namespace Warnings

/-! ### Runs of calls -/

/-- One use of the warnings. -/
inductive Call where
  /-- A warning is given. -/
  | warn (w : Warning)
  /-- It is asked whether a warning was given. -/
  | ask (w : Warning)
  /-- All that was given is forgotten. -/
  | forget

/-- What comes of a call. -/
inductive Outcome where
  /-- The warnings that are issued. -/
  | issued (news : List Warning)
  /-- The answer to the question. -/
  | answer (given : Bool)
  /-- Nothing. -/
  | done
deriving DecidableEq

/-- One call. -/
def call (ws : Warnings) : Call → Outcome × Warnings
  | .warn w => (.issued ((ws.warn w).issued.drop ws.issued.length), ws.warn w)
  | .ask w => (.answer (ws.hasWarned w), ws)
  | .forget => (.done, ws.forget)

/-- What comes of several calls, one after the other. -/
def outcomes (ws : Warnings) : List Call → List Outcome
  | [] => []
  | first :: rest => (ws.call first).1 :: (ws.call first).2.outcomes rest

/-! ### What should come of them -/

namespace Call

/-- The warning that a call is about. -/
def about? : Call → Option Warning
  | .warn w | .ask w => some w
  | .forget => none

/-- The warnings given since all was forgotten, after one more call. -/
def given (before : List Warning) : Call → List Warning
  | .warn w => w :: before
  | .ask _ => before
  | .forget => []

variable (same : Warning → Warning → Prop) [DecidableRel same]

/-- What should come of a call: a warning is issued if none that is the same was given since all was
forgotten, and that is also what is answered. -/
def outcome (before : List Warning) : Call → Outcome
  | .warn w => .issued (if ∃ e ∈ before, same e w then [] else [w])
  | .ask w => .answer (∃ e ∈ before, same e w)
  | .forget => .done

end Call

/-- What should come of several calls, one after the other. -/
def outcomesBy (same : Warning → Warning → Prop) [DecidableRel same] (before : List Warning) :
    List Call → List Outcome
  | [] => []
  | first :: rest => first.outcome same before :: outcomesBy same (first.given before) rest

/-- No call is about a warning that overlaps one given since all was forgotten, or is overlapped by
one. -/
def KeptApart (before : List Warning) : List Call → Prop
  | [] => True
  | first :: rest =>
    (∀ w ∈ first.about?, ∀ e ∈ before, ¬e.Overlaps w ∧ ¬w.Overlaps e) ∧
      KeptApart (first.given before) rest

/-! ### A run goes by texts -/

variable {ws : Warnings} {before : List Warning}

/-- What counts as given is what reads like one of several warnings. -/
def Recalls (ws : Warnings) (before : List Warning) : Prop :=
  ∀ w, ws.hasWarned w = true ↔ ∃ e ∈ before, e.ReadsLike w

/-- A warning is issued if it does not count as given. -/
theorem issued_warn (ws : Warnings) (w : Warning) :
    (ws.warn w).issued = ws.issued ++ if ws.hasWarned w then [] else [w] := by
  unfold warn
  split <;> simp

/-- One call goes by the texts of the warnings given before. -/
theorem Recalls.call (h : ws.Recalls before) (c : Call) :
    (ws.call c).1 = c.outcome Warning.ReadsLike before ∧
      (ws.call c).2.Recalls (c.given before) := by
  cases c with
  | warn w =>
      constructor
      · simp only [Warnings.call, Call.outcome, issued_warn, List.drop_left, h w]
      · intro other
        rw [Warnings.call, hasWarned_warn, Bool.or_eq_true, beq_iff_eq, Warning.key_eq_iff, h other]
        simp [Call.given]
  | ask w =>
      refine ⟨?_, h⟩
      simp only [Warnings.call, Call.outcome, ← h w, Bool.decide_eq_true]
  | forget => exact ⟨rfl, fun w => by simp [Warnings.call, Call.given]⟩

/-- Several calls go by the texts of the warnings given before. -/
theorem Recalls.outcomes (h : ws.Recalls before) (calls : List Call) :
    ws.outcomes calls = outcomesBy Warning.ReadsLike before calls := by
  induction calls generalizing ws before with
  | nil => rfl
  | cons first rest ih =>
      obtain ⟨hfirst, hrest⟩ := h.call first
      exact List.cons_eq_cons.mpr ⟨hfirst, ih hrest⟩

/-! ### Where texts and warnings come to the same -/

/-- No two of several warnings read the same. -/
def Distinguished (before : List Warning) : Prop :=
  ∀ e ∈ before, ∀ w ∈ before, e.ReadsLike w → e = w

/-- Where no two of the given warnings read the same, a further one is told from them by its text
just if it neither overlaps nor is overlapped. -/
theorem Distinguished.exists_readsLike_iff (h : Distinguished before) (w : Warning) :
    ((∃ e ∈ before, e.ReadsLike w) ↔ ∃ e ∈ before, e = w) ↔
      ∀ e ∈ before, ¬e.Overlaps w ∧ ¬w.Overlaps e := by
  simp only [← Warning.eq_of_readsLike_iff]
  constructor
  · intro hiff e he hreads
    obtain ⟨_, hw, rfl⟩ := hiff.mp ⟨e, he, hreads⟩
    exact h e he _ hw hreads
  · intro happart
    constructor
    · rintro ⟨e, he, hreads⟩
      exact ⟨e, he, happart e he hreads⟩
    · rintro ⟨e, he, rfl⟩
      exact ⟨e, he, .inl rfl⟩

/-- Two conditions keep the same warning from being issued just if they agree. -/
theorem ite_nil_eq_iff {p q : Prop} [Decidable p] [Decidable q] {w : Warning} :
    (if p then [] else [w]) = (if q then [] else [w]) ↔ (p ↔ q) := by
  by_cases hp : p <;> by_cases hq : q <;> simp [hp, hq]

/-- A call goes by warnings just if it is about none that overlaps a given one or is overlapped. -/
theorem Distinguished.outcome_eq_iff (h : Distinguished before) (c : Call) :
    c.outcome Warning.ReadsLike before = c.outcome (· = ·) before ↔
      ∀ w ∈ c.about?, ∀ e ∈ before, ¬e.Overlaps w ∧ ¬w.Overlaps e := by
  cases c with
  | warn w =>
      simp only [Call.outcome, Call.about?, Option.mem_some_iff, forall_eq',
        ← h.exists_readsLike_iff w, Outcome.issued.injEq, ite_nil_eq_iff]
  | ask w =>
      simp only [Call.outcome, Call.about?, Option.mem_some_iff, forall_eq',
        ← h.exists_readsLike_iff w, Outcome.answer.injEq, decide_eq_decide]
  | forget => simp [Call.outcome, Call.about?]

/-- Warnings that are kept apart are told from each other. -/
theorem Distinguished.given (h : Distinguished before) {c : Call}
    (hc : ∀ w ∈ c.about?, ∀ e ∈ before, ¬e.Overlaps w ∧ ¬w.Overlaps e) :
    Distinguished (c.given before) := by
  cases c with
  | warn w =>
      have hw : ∀ e ∈ before, e.ReadsLike w → e = w := fun e he =>
        Warning.eq_of_readsLike_iff.mpr (hc w rfl e he)
      intro e he other hother hreads
      rcases List.mem_cons.mp he with rfl | hbefore <;>
        rcases List.mem_cons.mp hother with rfl | hbefore'
      · rfl
      · exact (hw other hbefore' hreads.symm).symm
      · exact hw e hbefore hreads
      · exact h e hbefore other hbefore' hreads
  | ask w => exact h
  | forget => exact fun e he => absurd he List.not_mem_nil

/-- Several calls go by warnings just if these are kept apart. -/
theorem Distinguished.outcomesBy_eq_iff (h : Distinguished before) (calls : List Call) :
    outcomesBy Warning.ReadsLike before calls = outcomesBy (· = ·) before calls ↔
      KeptApart before calls := by
  induction calls generalizing before with
  | nil => simp [outcomesBy, KeptApart]
  | cons first rest ih =>
      rw [outcomesBy, outcomesBy, KeptApart, List.cons_eq_cons, h.outcome_eq_iff]
      exact and_congr_right fun hfirst => ih (h.given hfirst)

/-- Warnings of components without a closing bracket are kept apart. -/
theorem keptApart_of_no_bracket {calls : List Call}
    (hcalls : ∀ c ∈ calls, ∀ w ∈ c.about?, ']' ∉ w.component)
    (hbefore : ∀ e ∈ before, ']' ∉ e.component) : KeptApart before calls := by
  induction calls generalizing before with
  | nil => trivial
  | cons first rest ih =>
      obtain ⟨hfirst, hrest⟩ := List.forall_mem_cons.mp hcalls
      refine ⟨fun w hw e he => ⟨fun hover => ?_, fun hover => ?_⟩, ih hrest ?_⟩
      · exact hbefore e he hover.bracket_mem
      · exact hfirst w hw hover.bracket_mem
      · cases first with
        | warn w => exact List.forall_mem_cons.mpr ⟨hfirst w rfl, hbefore⟩
        | ask w => exact hbefore
        | forget => exact fun e he => absurd he List.not_mem_nil

/-- **A run of calls goes by the texts of the warnings**: a warning is issued, and a question
denied, just if none with the same text was given since all was forgotten. The run goes by the
warnings themselves just if these are kept apart. -/
theorem outcomes_by_text (calls : List Call) :
    outcomes {} calls = outcomesBy Warning.ReadsLike [] calls ∧
      (outcomes {} calls = outcomesBy (· = ·) [] calls ↔ KeptApart [] calls) := by
  have hnone : Recalls {} [] := fun w => by simp [hasWarned]
  have hapart : Distinguished [] := fun e he => absurd he List.not_mem_nil
  rw [hnone.outcomes]
  exact ⟨rfl, hapart.outcomesBy_eq_iff calls⟩

/-- Of two warnings that read the same only the first is issued, though it was given by another part
of the program. -/
theorem outcomes_ne_of_bracket_in_component :
    outcomes {} [.warn ⟨"A] B".toList, "c".toList⟩, .ask ⟨"A".toList, "B] c".toList⟩,
        .warn ⟨"A".toList, "B] c".toList⟩] ≠
      outcomesBy (· = ·) [] [.warn ⟨"A] B".toList, "c".toList⟩, .ask ⟨"A".toList, "B] c".toList⟩,
        .warn ⟨"A".toList, "B] c".toList⟩] := by
  decide

end Warnings

end TreeSelect
