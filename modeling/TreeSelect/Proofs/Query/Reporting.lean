import TreeSelect.Distinct
import TreeSelect.Proofs.Query.Remembering
/-!
# What a session reports

A list that is found in memory is not read again, so nothing is said about the clauses that its
text holds besides. Nothing is lost by that: when the list was stored its text was read, and what
there was to say was said then. So a session with a memory and one without give the same answers
and issue the same warnings at the same steps, as long as no warning is forgotten in between.

What matters for the warnings is which texts are looked up, and in which order. That depends on
the trees, the options and the questions, and not on the memory.

## Main definitions

* `Engine.complaints`: the warnings that a text gives rise to.
* `Engine.Settled`: a memory that is faithful and has nothing left to say.
* `Session.lookups`: the texts that a session looks up.
* `Session.transcript`: the answers of a session with the warnings that each step issues.

## Main statements

* `Warnings.issued_warnAll`: of several warnings those not seen before are issued, each once.
* `Session.warnings_run`: the warnings of a session are those about the texts it looks up.
* `Session.transcript_eq_forgetful`: **the memory cannot be observed.**
-/

namespace TreeSelect

/-! ### Several warnings -/

/-- Two warnings from one part of the program are recognised by what they say. -/
theorem Warning.eq_of_key_eq {w other : Warning} (hcomponent : w.component = other.component)
    (hkey : w.key = other.key) : w = other := by
  obtain ⟨component, message⟩ := w
  obtain ⟨component', message'⟩ := other
  obtain rfl : component = component' := hcomponent
  have hmessage : message = message' := by simpa [key] using hkey
  rw [hmessage]

namespace Warnings

/-- Issues several warnings, one after the other. -/
def warnAll (ws : Warnings) (news : List Warning) : Warnings :=
  news.foldl warn ws

variable {ws : Warnings} {news : List Warning}

/-- Two lists of warnings are issued one after the other. -/
theorem warnAll_append (ws : Warnings) (first second : List Warning) :
    ws.warnAll (first ++ second) = (ws.warnAll first).warnAll second :=
  List.foldl_append

/-- What was seen before or is among the new warnings has been seen. -/
theorem hasWarned_warnAll (ws : Warnings) (news : List Warning) (w : Warning) :
    (ws.warnAll news).hasWarned w = (ws.hasWarned w || news.any fun n => n.key == w.key) := by
  induction news generalizing ws with
  | nil => simp [warnAll]
  | cons first rest ih =>
      have hrest : (ws.warnAll (first :: rest)) = (ws.warn first).warnAll rest := rfl
      rw [hrest, ih, hasWarned_warn, List.any_cons, Bool.or_comm (first.key == w.key),
        Bool.or_assoc]

/-- Warnings that were seen before change nothing. -/
theorem warnAll_eq_self (h : ∀ w ∈ news, ws.hasWarned w = true) : ws.warnAll news = ws := by
  induction news with
  | nil => rfl
  | cons first rest ih =>
      have hrest : ws.warnAll (first :: rest) = (ws.warn first).warnAll rest := rfl
      have hfirst : ws.warn first = ws := by rw [warn, if_pos (h first (by simp))]
      rw [hrest, hfirst]
      exact ih fun w hw => h w (List.mem_cons_of_mem _ hw)

/-- Among warnings from one part of the program, one has been seen if it is among the new ones or
was seen before. -/
theorem hasWarned_warnAll_of_component {component : Text}
    (hnews : ∀ w ∈ news, w.component = component) {w : Warning} (hw : w.component = component) :
    (ws.warnAll news).hasWarned w = (ws.hasWarned w || news.contains w) := by
  rw [hasWarned_warnAll, Bool.eq_iff_iff]
  simp only [Bool.or_eq_true, List.any_eq_true, beq_iff_eq, List.contains_iff_mem]
  refine or_congr_right ⟨?_, fun hmem => ⟨w, hmem, rfl⟩⟩
  rintro ⟨n, hn, hkey⟩
  exact Warning.eq_of_key_eq ((hnews n hn).trans hw.symm) hkey ▸ hn

/-- **Of several warnings from one part of the program those that were not seen before are issued**,
in their order and each once. -/
theorem issued_warnAll {component : Text} (hnews : ∀ w ∈ news, w.component = component) :
    (ws.warnAll news).issued =
      ws.issued ++ distinct (news.filter fun w => !ws.hasWarned w) := by
  induction news generalizing ws with
  | nil => simp [warnAll, distinct]
  | cons first rest ih =>
      have hrest := @ih (ws.warn first) fun w hw => hnews w (List.mem_cons_of_mem _ hw)
      rw [show ws.warnAll (first :: rest) = (ws.warn first).warnAll rest from rfl, hrest]
      cases hseen : ws.hasWarned first with
      | true =>
          have hsame : ws.warn first = ws := by rw [warn, if_pos hseen]
          rw [hsame, List.filter_cons_of_neg (by simp [hseen])]
      | false =>
          -- once the first is issued, the others are those that differ from it
          have hfresh : ∀ w ∈ rest,
              (!(ws.warn first).hasWarned w) = (w != first && !ws.hasWarned w) := by
            intro w hw
            have hiff : first.key = w.key ↔ w = first :=
              ⟨fun hkey => (Warning.eq_of_key_eq ((hnews first (by simp)).trans
                (hnews w (List.mem_cons_of_mem _ hw)).symm) hkey).symm, fun h => h ▸ rfl⟩
            rw [hasWarned_warn, Bool.not_or]
            congr 1
            rw [Bool.eq_iff_iff]
            simp [hiff]
          have hissued : (ws.warn first).issued = ws.issued ++ [first] := by
            rw [warn, hseen]
            rfl
          rw [hissued, List.filter_congr hfresh, ← List.filter_filter, distinct_filter,
            List.filter_cons_of_pos (by simp [hseen]), distinct, List.append_assoc]
          rfl

end Warnings

/-! ### One text -/

/-- The texts that give a context. -/
def Context.texts {ν : Type} : Context ν → List Text
  | .selector text => [text]
  | _ => []

namespace Engine

variable {e : Engine}

/-- The warnings that a text gives rise to: one for each clause that is left out. -/
def complaints (text : Text) : List Warning :=
  (SelectorList.read text).rejected.map rejection

/-- All complaints come from the reading of selectors. -/
theorem component_of_mem_complaints {texts : List Text} :
    ∀ w ∈ texts.flatMap complaints, w.component = "Selector".toList := by
  intro w hw
  obtain ⟨text, -, hw⟩ := List.mem_flatMap.mp hw
  obtain ⟨r, -, rfl⟩ := List.mem_map.mp hw
  rfl

/-- Every remembered list is what its text is read as, and all complaints about a remembered text
were made. -/
structure Settled (e : Engine) : Prop where
  /-- What is remembered is what would be read. -/
  faithful : e.memory.Faithful
  /-- What there is to say about a remembered text was said. -/
  told : ∀ text, (e.memory.list? text).isSome →
    ∀ w ∈ complaints text, e.warnings.hasWarned w = true

/-- An engine that remembers nothing is settled. -/
theorem settled_of_memory (h : e.memory = {}) : e.Settled where
  faithful := h ▸ Memory.faithful_empty
  told text htext := by
    rw [h] at htext
    cases htext

/-- Reading a text afresh makes the complaints about it. -/
theorem warnings_readAfresh (e : Engine) (text : Text) :
    (e.readAfresh text).2.warnings = e.warnings.warnAll (complaints text) := by
  simp [readAfresh, Warnings.warnAll, complaints, List.foldl_map]

/-- A settled engine makes the complaints about a text, whether or not it remembers the text: about
a remembered text there is nothing new to say. -/
theorem warnings_parse (h : e.Settled) (text : Text) :
    (e.parse text).2.warnings = e.warnings.warnAll (complaints text) := by
  rw [parse, remembered]
  cases e.remembers with
  | false => exact warnings_readAfresh e text
  | true =>
      rw [if_pos rfl, Memory.lookUp_fst]
      cases hlist : e.memory.list? text with
      | none => exact warnings_readAfresh _ text
      | some list => exact (Warnings.warnAll_eq_self (h.told text (by simp [hlist]))).symm

/-- Of the texts that are remembered after a text was looked up, all but that text were remembered
before. -/
theorem eq_or_isSome_of_parse {text other : Text}
    (hother : ((e.parse text).2.memory.list? other).isSome) :
    other = text ∨ (e.memory.list? other).isSome := by
  have hkept : ∀ t, (e.memory.lookUp t).2.list? other = e.memory.list? other := fun t => by
    rw [Memory.list?, Memory.entries_lookUp, Memory.list?]
  rw [parse, remembered] at hother
  cases hon : e.remembers with
  | false =>
      right
      simpa [readAfresh, hon] using hother
  | true =>
      rw [hon, if_pos rfl, Memory.lookUp_fst] at hother
      cases hlist : e.memory.list? text with
      | none =>
          simp only [hlist, readAfresh, if_true, Memory.list?_store, hkept] at hother
          by_cases hsame : text = other
          · exact .inl hsame.symm
          · exact .inr (by simpa [hsame] using hother)
      | some list =>
          right
          simpa [hlist, hkept] using hother

/-- A settled engine stays settled when a text is looked up. -/
theorem Settled.parse (h : e.Settled) (text : Text) : (e.parse text).2.Settled where
  faithful := faithful_parse h.faithful text
  told other hother w hw := by
    rw [warnings_parse h, Warnings.hasWarned_warnAll, Bool.or_eq_true]
    rcases eq_or_isSome_of_parse hother with rfl | hbefore
    · exact .inr (List.any_eq_true.mpr ⟨w, hw, by simp⟩)
    · exact .inl (h.told other hbefore w hw)

/-! ### One query -/

/-- Looks up several texts, one after the other. -/
def parseAll (e : Engine) (texts : List Text) : Engine :=
  texts.foldl (fun e text => (e.parse text).2) e

/-- A settled engine makes the complaints about several texts, and stays settled. -/
theorem Settled.parseAll (h : e.Settled) (texts : List Text) :
    (e.parseAll texts).Settled ∧
      (e.parseAll texts).warnings = e.warnings.warnAll (texts.flatMap complaints) := by
  induction texts generalizing e with
  | nil => exact ⟨h, rfl⟩
  | cons first rest ih =>
      obtain ⟨hsettled, hwarnings⟩ := ih (h.parse first)
      refine ⟨hsettled, ?_⟩
      rw [List.flatMap_cons, Warnings.warnAll_append, ← warnings_parse h first]
      exact hwarnings

variable {ν : Type} [DecidableEq ν]

/-- The texts that a query looks up: the one that gives its context, if a text does, and then its
own, if the context is somewhere. -/
def lookups (v : View ν) (options : Options) (text : Text) (context : Context ν) : List Text :=
  context.texts ++ if (context.place? v options).isSome then [text] else []

/-- A query leaves the engine as looking up its texts does. -/
theorem query_snd (h : e.memory.Faithful) (v : View ν) (options : Options) (text : Text)
    (context : Context ν) :
    (e.query v options text context).2 = e.parseAll (lookups v options text context) := by
  have hengine : (e.resolve v options context).2 = e.parseAll context.texts := by
    cases context <;> rfl
  rw [query, lookups, ← resolve_fst h]
  generalize e.resolve v options context = resolved at hengine
  obtain ⟨place, e'⟩ := resolved
  obtain rfl : e' = e.parseAll context.texts := hengine
  cases place with
  | none => exact congrArg e.parseAll (List.append_nil _).symm
  | some scope =>
      show ((e.parseAll context.texts).parse text).2 = e.parseAll (context.texts ++ [text])
      rw [parseAll, parseAll, List.foldl_append]
      rfl

end Engine

/-! ### Sessions -/

namespace Session

variable {s other : Session}

/-- The texts that a step looks up. -/
def looksUp (s : Session) : Step → List Text
  | .parse text => [text]
  | .query lookup text context => Engine.lookups (s.tree.viewBy lookup) s.options text context
  | .queryFirst lookup text context => Engine.lookups (s.tree.viewBy lookup) s.options text context
  | _ => []

/-- The texts that several steps look up, in their order. -/
def lookups (s : Session) : List Step → List Text
  | [] => []
  | first :: rest => s.looksUp first ++ (s.step first).2.lookups rest

/-- A step makes the complaints about the texts that it looks up, and it leaves the engine
settled. -/
theorem settled_step (h : s.engine.Settled) (step : Step) :
    (s.step step).2.engine.Settled ∧
      (s.step step).2.engine.warnings =
        s.engine.warnings.warnAll ((s.looksUp step).flatMap Engine.complaints) := by
  cases step with
  | setTree tree => exact ⟨h, rfl⟩
  | setOptions options => exact ⟨h, rfl⟩
  | setRemembering on => exact ⟨⟨h.faithful, h.told⟩, rfl⟩
  | clearMemory => exact ⟨Engine.settled_of_memory rfl, rfl⟩
  | parse text => exact h.parseAll [text]
  | query lookup text context | queryFirst lookup text context =>
      show (s.engine.query _ s.options text context).2.Settled ∧
        (s.engine.query _ s.options text context).2.warnings = _
      rw [Engine.query_snd h.faithful]
      exact h.parseAll _

/-- **The warnings of a session are those about the texts that it looks up**, made in the order of
the lookups. -/
theorem warnings_run (h : s.engine.Settled) (steps : List Step) :
    (s.run steps).2.engine.Settled ∧
      (s.run steps).2.engine.warnings =
        s.engine.warnings.warnAll ((s.lookups steps).flatMap Engine.complaints) := by
  induction steps generalizing s with
  | nil => exact ⟨h, rfl⟩
  | cons first rest ih =>
      obtain ⟨hsettled, hwarnings⟩ := settled_step h first
      rw [lookups, List.flatMap_append, Warnings.warnAll_append, ← hwarnings]
      exact ih hsettled

/-- The warnings that a step issues. -/
def issues (s : Session) (step : Step) : List Warning :=
  (s.step step).2.engine.warnings.issued.drop s.engine.warnings.issued.length

/-- A step issues the complaints about the texts that it looks up, without those that were made
before and each once. -/
theorem issues_eq (h : s.engine.Settled) (step : Step) :
    s.issues step = distinct (((s.looksUp step).flatMap Engine.complaints).filter fun w =>
      !s.engine.warnings.hasWarned w) := by
  rw [issues, (settled_step h step).2,
    Warnings.issued_warnAll Engine.component_of_mem_complaints, List.drop_left]

/-- The answers of several steps, each with the warnings that the step issues. -/
def transcript (s : Session) : List Step → List (Answer × List Warning)
  | [] => []
  | first :: rest => ((s.step first).1, s.issues first) :: (s.step first).2.transcript rest

/-- A transcript holds the answers of the run. -/
theorem map_fst_transcript (s : Session) (steps : List Step) :
    (s.transcript steps).map Prod.fst = (s.run steps).1 := by
  induction steps generalizing s with
  | nil => rfl
  | cons first rest ih => exact congrArg _ (ih _)

/-- In a transcript each step stands with its answer and with the warnings that it issues after the
steps before it. -/
theorem getElem?_transcript (s : Session) (before : List Step) (step : Step) (after : List Step) :
    (s.transcript (before ++ step :: after))[before.length]? =
      some (((s.run before).2.step step).1, (s.run before).2.issues step) := by
  induction before generalizing s with
  | nil => rfl
  | cons first rest ih => exact ih _

/-- All that a session issues is in its transcript. -/
theorem issued_run (h : s.engine.Settled) (steps : List Step) :
    (s.run steps).2.engine.warnings.issued =
      s.engine.warnings.issued ++ (s.transcript steps).flatMap Prod.snd := by
  induction steps generalizing s with
  | nil => simp [run, transcript]
  | cons first rest ih =>
      obtain ⟨hsettled, hwarnings⟩ := settled_step h first
      have hstep : (s.step first).2.engine.warnings.issued =
          s.engine.warnings.issued ++ s.issues first := by
        rw [issues_eq h, hwarnings, Warnings.issued_warnAll Engine.component_of_mem_complaints]
      rw [transcript, List.flatMap_cons, ← List.append_assoc, ← hstep]
      exact ih hsettled

/-! ### Without a memory -/

/-- The same step where no memory comes into use. -/
def Step.forgetful : Step → Step
  | .setRemembering _ => .setRemembering false
  | step => step

/-- The same session with its memory out of use. -/
def forgetful (s : Session) : Session :=
  { s with engine := { s.engine with remembers := false } }

/-- Two sessions differ at most in their memories. -/
structure Agrees (s other : Session) : Prop where
  /-- They are about one tree. -/
  tree : s.tree = other.tree
  /-- They have the same options. -/
  options : s.options = other.options
  /-- They have issued the same warnings. -/
  warnings : s.engine.warnings = other.engine.warnings

/-- Settled sessions that differ at most in their memories answer alike. -/
theorem Agrees.answer (h : s.Agrees other) (hs : s.engine.Settled) (hother : other.engine.Settled)
    (step : Step) : (s.step step).1 = (other.step step.forgetful).1 := by
  obtain ⟨tree, options, engine⟩ := s
  obtain ⟨_, _, engine'⟩ := other
  obtain ⟨rfl, rfl, -⟩ := h
  cases step with
  | parse text =>
      show Answer.list (engine.parse text).1 = Answer.list (engine'.parse text).1
      rw [Engine.parse_fst hs.faithful, Engine.parse_fst hother.faithful]
  | query lookup text context =>
      show Answer.nodes (engine.query _ options text context).1 =
        Answer.nodes (engine'.query _ options text context).1
      rw [Engine.query_fst hs.faithful, Engine.query_fst hother.faithful]
  | queryFirst lookup text context =>
      show Answer.node (engine.query _ options text context).1.head? =
        Answer.node (engine'.query _ options text context).1.head?
      rw [Engine.query_fst hs.faithful, Engine.query_fst hother.faithful]
  | _ => rfl

/-- Sessions that differ at most in their memories look up the same texts. -/
theorem Agrees.looksUp (h : s.Agrees other) (step : Step) :
    s.looksUp step = other.looksUp step.forgetful := by
  cases step <;> simp [Session.looksUp, Step.forgetful, h.tree, h.options]

/-- Settled sessions that differ at most in their memories still do after a step. -/
theorem Agrees.step (h : s.Agrees other) (hs : s.engine.Settled) (hother : other.engine.Settled)
    (step : Step) : (s.step step).2.Agrees (other.step step.forgetful).2 where
  tree := by cases step <;> first | exact h.tree | rfl
  options := by cases step <;> first | exact h.options | rfl
  warnings := by
    rw [(settled_step hs step).2, (settled_step hother step.forgetful).2, h.warnings, h.looksUp]

/-- Settled sessions that differ at most in their memories have one transcript. -/
theorem Agrees.transcript (h : s.Agrees other) (hs : s.engine.Settled)
    (hother : other.engine.Settled) (steps : List Step) :
    s.transcript steps = other.transcript (steps.map Step.forgetful) := by
  induction steps generalizing s other with
  | nil => rfl
  | cons first rest ih =>
      rw [List.map_cons, Session.transcript, Session.transcript, h.answer hs hother,
        issues_eq hs, issues_eq hother, h.looksUp, h.warnings]
      exact congrArg _ (ih (h.step hs hother first) (settled_step hs first).1
        (settled_step hother first.forgetful).1)

/-- **The memory cannot be observed.** A session that begins with an empty memory has the
transcript of the same session without memory: every step has the same answer and issues the same
warnings. Of all complaints about the texts that are looked up, those that were not made before the
session are made, each once; and each is made at the first step that looks up a text which gives
rise to it. -/
theorem transcript_eq_forgetful {s : Session} (h : s.engine.memory = {}) (steps : List Step) :
    s.transcript steps = s.forgetful.transcript (steps.map Step.forgetful) ∧
      (s.transcript steps).map Prod.fst = (s.run steps).1 ∧
      (s.transcript steps).flatMap Prod.snd =
        distinct (((s.lookups steps).flatMap Engine.complaints).filter fun w =>
          !s.engine.warnings.hasWarned w) ∧
      ∀ before step after, steps = before ++ step :: after →
        (s.transcript steps)[before.length]? =
          some (((s.run before).2.step step).1,
            distinct ((((s.run before).2.looksUp step).flatMap Engine.complaints).filter fun w =>
              !s.engine.warnings.hasWarned w &&
                !((s.lookups before).flatMap Engine.complaints).contains w)) := by
  have hsettled := Engine.settled_of_memory h
  have hforgetful : s.forgetful.engine.Settled := Engine.settled_of_memory h
  have hagrees : s.Agrees s.forgetful := ⟨rfl, rfl, rfl⟩
  refine ⟨hagrees.transcript hsettled hforgetful steps, map_fst_transcript s steps, ?_, ?_⟩
  · have hissued := issued_run hsettled steps
    rw [(warnings_run hsettled steps).2,
      Warnings.issued_warnAll Engine.component_of_mem_complaints] at hissued
    exact (List.append_cancel_left hissued).symm
  · rintro before step after rfl
    obtain ⟨hbefore, hwarnings⟩ := warnings_run hsettled before
    rw [getElem?_transcript, issues_eq hbefore, hwarnings]
    congr 3
    refine List.filter_congr fun w hw => ?_
    rw [Warnings.hasWarned_warnAll_of_component Engine.component_of_mem_complaints
      (Engine.component_of_mem_complaints w hw), Bool.not_or]

/-- One text is asked for twice, one of its clauses gives a context, and after the memory is cleared
the text is read once more with another clause behind it. -/
def askedAgain : List Step :=
  [.setRemembering true, .query .own "li, >".toList .root, .query .own "li, >".toList .root,
    .query .own "li".toList (.selector ">".toList), .clearMemory, .parse "li, >, [".toList]

/-- The second question is answered from memory, and only the first question and the last step
bring a warning; without memory they bring the same. -/
theorem transcript_eq_forgetful_askedAgain :
    let s : Session := { tree := .twoItems }
    s.engine.memory = {} ∧ (s.run (askedAgain.take 3)).2.engine.memory.hits = 1 ∧
      (s.transcript askedAgain).map (fun entry => entry.2.length) = [0, 1, 0, 0, 0, 1] ∧
      s.transcript askedAgain = s.forgetful.transcript (askedAgain.map Step.forgetful) := by
  intro s
  have hsame := (transcript_eq_forgetful (s := s) rfl askedAgain).1
  exact ⟨rfl, by decide +kernel, by decide +kernel, hsame⟩

end Session

end TreeSelect
