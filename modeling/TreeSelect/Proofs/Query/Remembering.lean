import TreeSelect.Proofs.Selector.Alternatives
import TreeSelect.Query.Session
/-!
# Remembered lists

A list is remembered under the text that it was read from, and nothing else is ever remembered,
whatever is asked, edited or switched in between. So an answer is that of an engine without memory:
it depends on the tree, the options, the context and the text, and not on what was asked before.

With that, what joined texts find follows from what they are read as.

## Main definitions

* `Memory.Faithful`: every remembered list is what its text is read as.
* `Memory.Reached`: the memory at the end of a session that began with the empty one.
* `Context.place?`: the node where a search starts, without a memory.

## Main statements

* `Session.faithful_run`: a session keeps its memory faithful.
* `Engine.query_fst`: what a faithful engine answers.
* `Engine.query_append`: **joined texts find what both find, one after the other.**
-/

namespace TreeSelect

/-! ### Faithful memories -/

namespace Memory

variable {m : Memory}

/-- Every remembered list is what its text is read as. -/
def Faithful (m : Memory) : Prop :=
  ∀ text list, m.list? text = some list → list = SelectorList.parse text

/-- An empty memory is faithful. -/
theorem faithful_empty : Faithful {} := by
  rintro text list ⟨⟩

/-- A lookup keeps a memory faithful. -/
theorem Faithful.lookUp (h : m.Faithful) (text : Text) : (m.lookUp text).2.Faithful := by
  intro other list hlist
  rw [list?, entries_lookUp] at hlist
  exact h other list hlist

/-- Storing what a text is read as keeps a memory faithful. -/
theorem Faithful.store (h : m.Faithful) (text : Text) :
    (m.store text (SelectorList.parse text)).Faithful := by
  intro other list hlist
  rw [list?_store] at hlist
  split at hlist
  · rename_i hsame
    rw [← hsame]
    exact (Option.some.inj hlist).symm
  · exact h other list hlist

end Memory

/-! ### Faithful engines -/

/-- The node where a search starts, if there is one, without a memory. -/
def Context.place? {ν : Type} [DecidableEq ν] (v : View ν) (options : Options) :
    Context ν → Option ν
  | .root => some v.root
  | .node n => some n
  | .nodes ns => ns.head?
  | .selector text => ((SelectorList.parse text).matches v options v.root).head?

namespace Engine

variable {e : Engine}

/-- A text from memory or read afresh is what the text is read as. -/
theorem parse_fst (h : e.memory.Faithful) (text : Text) :
    (e.parse text).1 = SelectorList.parse text := by
  rw [parse, remembered]
  cases e.remembers with
  | false => rfl
  | true =>
      rw [if_pos rfl, Memory.lookUp_fst]
      cases hlist : e.memory.list? text with
      | none => rfl
      | some list => exact h text list hlist

/-- Reading a text keeps the memory faithful. -/
theorem faithful_parse (h : e.memory.Faithful) (text : Text) :
    (e.parse text).2.memory.Faithful := by
  rw [parse, remembered]
  cases hon : e.remembers with
  | false => simpa [readAfresh, hon] using h
  | true =>
      rw [if_pos rfl, Memory.lookUp_fst]
      cases e.memory.list? text with
      | none => simpa [readAfresh, hon, SelectorList.parse] using (h.lookUp text).store text
      | some list => exact h.lookUp text

variable {ν : Type} [DecidableEq ν]

/-- A faithful engine starts a search where one without memory does. -/
theorem resolve_fst (h : e.memory.Faithful) (v : View ν) (options : Options)
    (context : Context ν) : (e.resolve v options context).1 = context.place? v options := by
  cases context with
  | selector text =>
      show (SelectorList.matches (e.parse text).1 v options v.root).head? = _
      rw [parse_fst h]
      rfl
  | _ => rfl

/-- Finding the start of a search keeps the memory faithful. -/
theorem faithful_resolve (h : e.memory.Faithful) (v : View ν) (options : Options)
    (context : Context ν) : (e.resolve v options context).2.memory.Faithful := by
  cases context with
  | selector text => exact faithful_parse h text
  | _ => exact h

/-- **What a faithful engine answers**: what the selectors of the text find at the place where the
search starts, or nothing if there is no such place. -/
theorem query_fst (h : e.memory.Faithful) (v : View ν) (options : Options) (text : Text)
    (context : Context ν) :
    (e.query v options text context).1 =
      match context.place? v options with
      | none => []
      | some scope => (SelectorList.parse text).matches v options scope := by
  rw [query, ← resolve_fst h]
  have hfaithful := faithful_resolve h v options context
  generalize e.resolve v options context = resolved at hfaithful
  obtain ⟨place, e'⟩ := resolved
  cases place with
  | none => rfl
  | some scope =>
      show SelectorList.matches (e'.parse text).1 v options scope = _
      rw [parse_fst hfaithful]

/-- A query keeps the memory faithful. -/
theorem faithful_query (h : e.memory.Faithful) (v : View ν) (options : Options) (text : Text)
    (context : Context ν) : (e.query v options text context).2.memory.Faithful := by
  rw [query]
  have hfaithful := faithful_resolve h v options context
  generalize e.resolve v options context = resolved at hfaithful
  obtain ⟨place, e'⟩ := resolved
  cases place with
  | none => exact hfaithful
  | some scope => exact faithful_parse hfaithful text

end Engine

/-! ### Sessions -/

namespace Session

variable {s : Session}

/-- A step keeps the memory faithful. -/
theorem faithful_step (h : s.engine.memory.Faithful) (step : Step) :
    (s.step step).2.engine.memory.Faithful := by
  cases step with
  | setTree tree => exact h
  | setOptions options => exact h
  | setRemembering on => exact h
  | clearMemory => exact Memory.faithful_empty
  | parse text => exact Engine.faithful_parse h text
  | query lookup text context => exact Engine.faithful_query h _ _ text context
  | queryFirst lookup text context => exact Engine.faithful_query h _ _ text context

/-- A session keeps the memory faithful. -/
theorem faithful_run (h : s.engine.memory.Faithful) (steps : List Step) :
    (s.run steps).2.engine.memory.Faithful := by
  induction steps generalizing s with
  | nil => exact h
  | cons first rest ih => exact ih (faithful_step h first)

end Session

/-- A session that began with the empty memory led to a memory. -/
def Memory.Reached (m : Memory) : Prop :=
  ∃ (start : Session) (steps : List Session.Step),
    start.engine.memory = {} ∧ m = (start.run steps).2.engine.memory

/-- What a session led to is faithful. -/
theorem Memory.Reached.faithful {m : Memory} (h : m.Reached) : m.Faithful := by
  obtain ⟨start, steps, hempty, rfl⟩ := h
  exact Session.faithful_run (hempty ▸ faithful_empty) steps

/-! ### Joined texts -/

/-- **Joined texts find what both find**, one after the other and with repeats, if nothing is
rejected of either; and they are read as both. The three engines may have been asked anything
before. -/
theorem Engine.query_append {ν : Type} [DecidableEq ν] {e e₁ e₂ : Engine} (he : e.memory.Reached)
    (he₁ : e₁.memory.Reached) (he₂ : e₂.memory.Reached) {a b : Text}
    (ha : (SelectorList.read a).rejected = []) (hb : (SelectorList.read b).rejected = [])
    (v : View ν) (options : Options) (context : Context ν) :
    SelectorList.parse (a ++ [',', ' '] ++ b) = SelectorList.parse a ++ SelectorList.parse b ∧
      (e.query v options (a ++ [',', ' '] ++ b) context).1 =
        (e₁.query v options a context).1 ++ (e₂.query v options b context).1 := by
  have hparse := SelectorList.parse_append ha hb
  refine ⟨hparse, ?_⟩
  rw [query_fst he.faithful, query_fst he₁.faithful, query_fst he₂.faithful, hparse]
  cases context.place? v options with
  | none => rfl
  | some scope => exact SelectorList.matches_append _ _ v options scope

/-- A list with two items, one of them with an id. -/
def Tree.twoItems : Tree :=
  ((empty.append 0 (.element ⟨['u', 'l'], .empty⟩)).append 1
    (.element ⟨['l', 'i'], .ofList [("id".toList, ['x'])]⟩)).append 1
      (.element ⟨['l', 'i'], .empty⟩)

/-- Both items, and once more the one with the id, although an operator before the comma opens a
bracket. The engine remembers both texts. -/
theorem Engine.query_append_twoItems :
    let asked := (Session.run { tree := .twoItems }
      [.setRemembering true, .query .own "li, [id[=x]".toList .root,
        .query .own "[id='x']".toList .root]).2.engine
    asked.memory.size = 2 ∧
      (asked.query Tree.twoItems.view {} "li, [id[=x], [id='x']".toList .root).1 = [2, 3, 2] := by
  intro asked
  have hreached : asked.memory.Reached := ⟨_, _, rfl, rfl⟩
  have hjoined := (query_append hreached hreached hreached (a := "li, [id[=x]".toList)
    (b := "[id='x']".toList) (by decide +kernel) (by decide +kernel) Tree.twoItems.view {}
    .root).2
  refine ⟨by decide +kernel, hjoined.trans ?_⟩
  decide +kernel

end TreeSelect
