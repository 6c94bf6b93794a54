import TreeSelect.Query.Match
import TreeSelect.Selector.Parser
/-!
# Queries and sessions

A query is a selector text and the place where the search starts. Its text is looked up in the
memory, if the engine has its memory in use, and read otherwise; clauses that cannot be read are
left out, with a warning for each. So a query always has an answer.

The memory holds selector lists that were read before, by the text that they were read from, and
counts how often a text was and was not found. A list depends on nothing but its text, so it never
becomes wrong.

A warning is issued once: of equal warnings only the first is issued, until all that was issued is
forgotten. Two warnings are equal if they read the same as `[component] message`.

A session is a run of queries between which the tree, the options and the use of the memory may
change. What is remembered survives such changes, for it does not depend on the tree.

## Main definitions

* `Memory`, `Memory.lookUp`, `Memory.store`: the remembered lists and the two counters.
* `Warning`, `Warnings`: one warning, and those issued so far.
* `Warnings.warn`, `Warnings.hasWarned`, `Warnings.forget`.
* `Engine`: what outlasts a query, which is the memory and the warnings.
* `Context`: where a search starts.
* `Engine.parse`, `Engine.resolve`, `Engine.query`, `Engine.queryFirst`.
* `Session`: a tree, the options and an engine.
* `Session.Step`, `Session.Answer`: what can be done in a session, and what comes of it.
* `Session.step`, `Session.run`: one step, and several.

## Main statements

* `Memory.list?_store`: storing changes what one text is found as.
* `Warnings.hasWarned_warn`: a warning that was issued is not issued again.
* `Session.run_append`: a run goes on where its first part ends.
-/

namespace TreeSelect

/-! ### Memory -/

/-- Selector lists by their texts, and counters of lookups. -/
structure Memory where
  /-- The lists, each text at most once. -/
  entries : List (Text × SelectorList) := []
  /-- The lookups that found a list. -/
  hits : Nat := 0
  /-- The lookups that found none. -/
  misses : Nat := 0
deriving DecidableEq, Repr, Inhabited

namespace Memory

/-- The list remembered for a text. -/
def list? (m : Memory) (text : Text) : Option SelectorList :=
  (m.entries.find? fun entry => entry.1 == text).map Prod.snd

/-- Looks up a text and counts the lookup. -/
def lookUp (m : Memory) (text : Text) : Option SelectorList × Memory :=
  match m.list? text with
  | some list => (some list, { m with hits := m.hits + 1 })
  | none => (none, { m with misses := m.misses + 1 })

/-- Remembers a list for a text, in place of an earlier one. -/
def store (m : Memory) (text : Text) (list : SelectorList) : Memory :=
  { m with entries := (text, list) :: m.entries.filter fun entry => entry.1 != text }

/-- The number of remembered lists. -/
def size (m : Memory) : Nat :=
  m.entries.length

/-- A lookup answers what is remembered. -/
@[simp] theorem lookUp_fst (m : Memory) (text : Text) : (m.lookUp text).1 = m.list? text := by
  unfold lookUp
  split <;> simp [*]

/-- A lookup remembers nothing new and forgets nothing. -/
@[simp] theorem entries_lookUp (m : Memory) (text : Text) :
    (m.lookUp text).2.entries = m.entries := by
  unfold lookUp
  split <;> rfl

/-- Storing changes what one text is found as. -/
theorem list?_store (m : Memory) (text other : Text) (list : SelectorList) :
    (m.store text list).list? other = if text = other then some list else m.list? other := by
  by_cases h : text = other
  · simp [list?, store, h]
  · simp only [list?, store, List.find?_cons, beq_false_of_ne h, h, if_false, List.find?_filter]
    congr 2
    funext entry
    by_cases ho : entry.1 = other <;> simp [ho, Ne.symm h]

end Memory

/-! ### Warnings -/

/-- Something to tell, and the part of the program that tells it. -/
structure Warning where
  /-- The part of the program. -/
  component : Text
  /-- What it tells. -/
  message : Text
deriving DecidableEq, Repr

/-- What a warning is recognised by. -/
def Warning.key (w : Warning) : Text :=
  '[' :: w.component ++ [']', ' '] ++ w.message

/-- The warnings issued so far. -/
structure Warnings where
  /-- What the warnings that are not issued again are recognised by. -/
  seen : List Text := []
  /-- All that was issued, the first warning first. -/
  issued : List Warning := []
deriving DecidableEq, Repr, Inhabited

namespace Warnings

/-- Whether a warning would not be issued again. -/
def hasWarned (ws : Warnings) (w : Warning) : Bool :=
  ws.seen.contains w.key

/-- Issues a warning, unless an equal one was issued before. -/
def warn (ws : Warnings) (w : Warning) : Warnings :=
  if ws.hasWarned w then ws else ⟨w.key :: ws.seen, ws.issued ++ [w]⟩

/-- Lets every warning be issued again. -/
def forget (ws : Warnings) : Warnings :=
  { ws with seen := [] }

/-- A warning that was issued is not issued again, and the others are as before. -/
theorem hasWarned_warn (ws : Warnings) (w other : Warning) :
    (ws.warn w).hasWarned other = (w.key == other.key || ws.hasWarned other) := by
  unfold warn
  split
  · rename_i h
    by_cases hkey : w.key = other.key
    · simpa [hasWarned, hkey] using h
    · simp [hkey]
  · by_cases hkey : w.key = other.key
    · simp [hasWarned, hkey]
    · simp [hasWarned, hkey, Ne.symm hkey]

/-- Nothing counts as issued after forgetting. -/
@[simp] theorem hasWarned_forget (ws : Warnings) (w : Warning) : ws.forget.hasWarned w = false :=
  rfl

end Warnings

/-! ### The engine -/

/-- Where a search starts. -/
inductive Context (ν : Type) where
  /-- At the root. -/
  | root
  /-- At a given node. -/
  | node (n : ν)
  /-- At the first of some nodes, or nowhere if there is none. -/
  | nodes (ns : List ν)
  /-- At the first node that a selector finds from the root, or nowhere if it finds none. -/
  | selector (text : Text)

/-- What outlasts a query. -/
structure Engine where
  /-- The remembered selector lists. -/
  memory : Memory := {}
  /-- Whether the memory is in use. -/
  remembers : Bool := false
  /-- The warnings issued so far. -/
  warnings : Warnings := {}
deriving DecidableEq, Repr, Inhabited

namespace Engine

/-- The warning about a clause that was left out. -/
def rejection (r : Rejected) : Warning :=
  ⟨"Selector".toList, r.message⟩

/-- Looks up a text in the memory, if the memory is in use. -/
def remembered (e : Engine) (text : Text) : Option SelectorList × Engine :=
  if e.remembers then
    ((e.memory.lookUp text).1, { e with memory := (e.memory.lookUp text).2 })
  else (none, e)

/-- Reads a text, warning of each rejected clause, and remembers what it holds if the memory is in
use. -/
def readAfresh (e : Engine) (text : Text) : SelectorList × Engine :=
  let outcome := SelectorList.read text
  (outcome.selectors,
    { e with
      memory := if e.remembers then e.memory.store text outcome.selectors else e.memory
      warnings := outcome.rejected.foldl (fun ws r => ws.warn (rejection r)) e.warnings })

/-- The selector list of a text, from memory or read afresh. -/
def parse (e : Engine) (text : Text) : SelectorList × Engine :=
  match e.remembered text with
  | (some list, e) => (list, e)
  | (none, e) => e.readAfresh text

variable {ν : Type} [DecidableEq ν]

/-- The nodes that a text finds at or below a node. -/
def queryAt (e : Engine) (v : View ν) (options : Options) (scope : ν) (text : Text) :
    List ν × Engine :=
  let (list, e) := e.parse text
  (list.matches v options scope, e)

/-- The node where a search starts, if there is one. -/
def resolve (e : Engine) (v : View ν) (options : Options) : Context ν → Option ν × Engine
  | .root => (some v.root, e)
  | .node n => (some n, e)
  | .nodes ns => (ns.head?, e)
  | .selector text =>
    let (found, e) := e.queryAt v options v.root text
    (found.head?, e)

/-- The nodes that a text finds in a context. A context that is nowhere leaves the text unread. -/
def query (e : Engine) (v : View ν) (options : Options) (text : Text) (context : Context ν) :
    List ν × Engine :=
  match e.resolve v options context with
  | (none, e) => ([], e)
  | (some scope, e) => e.queryAt v options scope text

/-- The first node that a text finds in a context. -/
def queryFirst (e : Engine) (v : View ν) (options : Options) (text : Text) (context : Context ν) :
    Option ν × Engine :=
  let (found, e) := e.query v options text context
  (found.head?, e)

/-- An engine that forgets its selector lists and its counters. -/
def clearMemory (e : Engine) : Engine :=
  { e with memory := {} }

/-- Without memory in use a text is read afresh. -/
theorem parse_of_not_remembers {e : Engine} (h : e.remembers = false) (text : Text) :
    e.parse text = e.readAfresh text := by
  simp [parse, remembered, h]

end Engine

/-- The nodes that a text finds from the root, without memory and with the choices left open. -/
def find {ν : Type} [DecidableEq ν] (v : View ν) (text : Text) : List ν :=
  (Engine.query {} v {} text .root).1

/-! ### Sessions -/

/-- A tree, the options and an engine. -/
structure Session where
  /-- The tree. -/
  tree : Tree := .empty
  /-- The options of each query. -/
  options : Options := {}
  /-- The memory and the warnings. -/
  engine : Engine := {}
deriving Inhabited

namespace Session

/-- Something done in a session. -/
inductive Step where
  /-- The tree changes. -/
  | setTree (tree : Tree)
  /-- The options change. -/
  | setOptions (options : Options)
  /-- The memory comes into use or goes out of use; what it holds stays. -/
  | setRemembering (on : Bool)
  /-- The memory is cleared. -/
  | clearMemory
  /-- A text is read. -/
  | parse (text : Text)
  /-- All nodes that a text finds are asked for. -/
  | query (lookup : Tree.Lookup) (text : Text) (context : Context NodeId)
  /-- The first node that a text finds is asked for. -/
  | queryFirst (lookup : Tree.Lookup) (text : Text) (context : Context NodeId)

/-- What comes of a step. -/
inductive Answer where
  /-- Nothing. -/
  | done
  /-- A selector list. -/
  | list (list : SelectorList)
  /-- Nodes. -/
  | nodes (nodes : List NodeId)
  /-- A node or none. -/
  | node (node : Option NodeId)
deriving DecidableEq, Repr

/-- One step of a session. -/
def step (s : Session) : Step → Answer × Session
  | .setTree tree => (.done, { s with tree })
  | .setOptions options => (.done, { s with options })
  | .setRemembering on => (.done, { s with engine := { s.engine with remembers := on } })
  | .clearMemory => (.done, { s with engine := s.engine.clearMemory })
  | .parse text =>
    let (list, engine) := s.engine.parse text
    (.list list, { s with engine })
  | .query lookup text context =>
    let (nodes, engine) := s.engine.query (s.tree.viewBy lookup) s.options text context
    (.nodes nodes, { s with engine })
  | .queryFirst lookup text context =>
    let (node, engine) := s.engine.queryFirst (s.tree.viewBy lookup) s.options text context
    (.node node, { s with engine })

/-- Several steps of a session, with the answer to each. -/
def run (s : Session) : List Step → List Answer × Session
  | [] => ([], s)
  | first :: rest =>
    let (answer, s) := s.step first
    let (answers, s) := s.run rest
    (answer :: answers, s)

/-- A run of two parts goes on where the first part ends. -/
theorem run_append (s : Session) (first second : List Step) :
    s.run (first ++ second) =
      ((s.run first).1 ++ ((s.run first).2.run second).1, ((s.run first).2.run second).2) := by
  induction first generalizing s with
  | nil => rfl
  | cons step rest ih => simp [run, ih]

end Session

end TreeSelect
