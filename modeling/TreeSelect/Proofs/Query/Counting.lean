import TreeSelect.Proofs.Query.Reporting
/-!
# What the counters of a memory count

A memory counts its lookups by whether they found a list. Nothing but a lookup that found none makes
it remember a text, and nothing but clearing it makes it forget one; so a lookup finds a list
exactly if its text was looked up since the memory was cleared. Hence the counters can be told from
the texts that were looked up since then, in whatever steps, through whatever contexts and on
whatever trees.

## Main definitions

* `Memory.Counts`: a memory counts the lookups of some texts.
* `Session.log`: the texts that were looked up in the memory since it was last cleared.

## Main statements

* `Engine.counts_parse`: looking up one more text.
* `Session.counts_step`, `Session.counts_run`: what a session keeps.
* `Session.counters_by_log`: **the counters are exact.**
-/

namespace TreeSelect

/-! ### One lookup -/

/-- A memory remembers some texts and nothing else, and it counts their lookups: the first of each
text found nothing, and all others found a list. -/
structure Memory.Counts (m : Memory) (texts : List Text) : Prop where
  /-- The remembered texts are those that were looked up. -/
  remembered : ∀ text, (m.list? text).isSome ↔ text ∈ texts
  /-- Each of them is remembered once. -/
  size : m.size = (distinct texts).length
  /-- The first lookup of each found nothing. -/
  misses : m.misses = (distinct texts).length
  /-- All lookups are counted. -/
  lookups : m.hits + m.misses = texts.length

namespace Memory

variable {m : Memory} {texts : List Text} {text : Text}

/-- An empty memory has counted nothing. -/
theorem counts_empty : Counts {} [] where
  remembered text := by simp [list?]
  size := rfl
  misses := rfl
  lookups := rfl

/-- A lookup remembers nothing new. -/
theorem list?_lookUp (m : Memory) (text other : Text) :
    (m.lookUp text).2.list? other = m.list? other := by
  rw [list?, entries_lookUp, list?]

/-- Storing a list for a text that is not remembered adds one. -/
theorem size_store (h : m.list? text = none) (list : SelectorList) :
    (m.store text list).size = m.size + 1 := by
  have hkept : m.entries.filter (fun entry => entry.1 != text) = m.entries := by
    rw [list?, Option.map_eq_none_iff, List.find?_eq_none] at h
    exact List.filter_eq_self.mpr fun entry hentry => by simpa using h entry hentry
  rw [size, store, hkept, List.length_cons, size]

namespace Counts

/-- A text that was looked up before is found. -/
theorem lookUp_of_mem (h : m.Counts texts) (hmem : text ∈ texts) :
    (m.lookUp text).2.Counts (texts ++ [text]) := by
  obtain ⟨list, hlist⟩ := Option.isSome_iff_exists.mp ((h.remembered text).mpr hmem)
  have hdistinct := distinct_append_singleton_of_mem hmem
  have hmemory : (m.lookUp text).2 = { m with hits := m.hits + 1 } := by rw [lookUp, hlist]
  refine ⟨fun other => ?_, ?_, ?_, ?_⟩
  · rw [list?_lookUp, h.remembered, List.mem_append, List.mem_singleton]
    exact ⟨.inl, fun hor => hor.elim id fun hsame => hsame ▸ hmem⟩
  · rw [hdistinct, hmemory]
    exact h.size
  · rw [hdistinct, hmemory]
    exact h.misses
  · rw [hmemory, List.length_append, List.length_singleton, ← h.lookups]
    exact Nat.add_right_comm _ _ _

/-- A text that was not looked up before is not found, and it is remembered from then on. -/
theorem store_of_notMem (h : m.Counts texts) (hmem : text ∉ texts) (list : SelectorList) :
    ((m.lookUp text).2.store text list).Counts (texts ++ [text]) := by
  have hnone : m.list? text = none :=
    Option.not_isSome_iff_eq_none.mp fun hsome => hmem ((h.remembered text).mp hsome)
  have hdistinct := distinct_append_singleton_of_notMem hmem
  have hmemory : (m.lookUp text).2 = { m with misses := m.misses + 1 } := by rw [lookUp, hnone]
  refine ⟨fun other => ?_, ?_, ?_, ?_⟩
  · rw [list?_store, list?_lookUp, List.mem_append, List.mem_singleton]
    by_cases hsame : text = other
    · simp [hsame]
    · rw [if_neg hsame, h.remembered]
      exact ⟨.inl, fun hor => hor.elim id fun heq => absurd heq.symm hsame⟩
  · rw [size_store (by rw [list?_lookUp, hnone]), hdistinct, hmemory, List.length_append,
      List.length_singleton, ← h.size]
    rfl
  · rw [hdistinct, hmemory, List.length_append, List.length_singleton, ← h.misses]
    rfl
  · rw [hmemory, List.length_append, List.length_singleton, ← h.lookups]
    exact (Nat.add_assoc _ _ _).symm

end Counts

end Memory

/-! ### Several lookups -/

namespace Engine

variable {e : Engine} {texts : List Text}

/-- Reading a text does not take the memory into use or out of use. -/
theorem remembers_parse (e : Engine) (text : Text) :
    (e.parse text).2.remembers = e.remembers := by
  rw [parse, remembered]
  cases hon : e.remembers with
  | false => exact hon
  | true =>
      rw [if_pos rfl, Memory.lookUp_fst]
      cases e.memory.list? text <;> rfl

/-- A memory that is in use counts one more text. -/
theorem counts_parse (h : e.memory.Counts texts) (hon : e.remembers = true) (text : Text) :
    (e.parse text).2.memory.Counts (texts ++ [text]) := by
  rw [parse, remembered, hon, if_pos rfl, Memory.lookUp_fst]
  cases hlist : e.memory.list? text with
  | none =>
      have hmem : text ∉ texts := fun hmem => by
        simpa [hlist] using (h.remembered text).mpr hmem
      simpa [readAfresh, hon] using h.store_of_notMem hmem _
  | some list => exact h.lookUp_of_mem ((h.remembered text).mp (by simp [hlist]))

/-- A memory that is not in use stays as it is. -/
theorem memory_parse_of_not_remembers (h : e.remembers = false) (text : Text) :
    (e.parse text).2.memory = e.memory := by
  simp [parse_of_not_remembers h, readAfresh, h]

/-- A memory that is in use counts several texts more, and one that is not stays as it is. -/
theorem counts_parseAll (h : e.memory.Counts texts) (news : List Text) :
    (e.parseAll news).memory.Counts (texts ++ if e.remembers then news else []) := by
  induction news generalizing e texts with
  | nil =>
      rw [ite_self, List.append_nil]
      exact h
  | cons first rest ih =>
      show ((e.parse first).2.parseAll rest).memory.Counts _
      cases hon : e.remembers with
      | false =>
          have hrest := @ih (e.parse first).2 texts
            (by rwa [memory_parse_of_not_remembers hon])
          rwa [remembers_parse, hon] at hrest
      | true =>
          have hrest := ih (counts_parse h hon first)
          rwa [remembers_parse, hon, if_pos rfl, List.append_assoc] at hrest

end Engine

/-! ### Sessions -/

namespace Session

variable {s : Session} {before : List Text}

/-- The log after a step: the texts that the step looks up in the memory are added, and it is empty
after the memory was cleared. -/
def logged (s : Session) (before : List Text) : Step → List Text
  | .clearMemory => []
  | step => before ++ if s.engine.remembers then s.looksUp step else []

/-- The log after several steps: the texts that were looked up in the memory since it was last
cleared, in the order of the lookups. -/
def log (s : Session) (before : List Text) : List Step → List Text
  | [] => before
  | first :: rest => (s.step first).2.log (s.logged before first) rest

/-- The engine after a question is the one that has looked up the texts of the question. -/
theorem engine_step_of_asks (h : s.engine.memory.Faithful) {step : Step} {lookup : Tree.Lookup}
    {text : Text} {context : Context NodeId}
    (hstep : step = .query lookup text context ∨ step = .queryFirst lookup text context) :
    (s.step step).2.engine = s.engine.parseAll (s.looksUp step) := by
  rcases hstep with rfl | rfl <;> exact Engine.query_snd h _ _ _ _

/-- A session keeps the memory and the log together. -/
theorem counts_step (hfaithful : s.engine.memory.Faithful) (h : s.engine.memory.Counts before)
    (step : Step) : (s.step step).2.engine.memory.Counts (s.logged before step) := by
  have hsame : s.engine.memory.Counts (before ++ if s.engine.remembers then [] else []) := by
    rwa [ite_self, List.append_nil]
  cases step with
  | setTree tree => exact hsame
  | setOptions options => exact hsame
  | setRemembering on => exact hsame
  | clearMemory => exact Memory.counts_empty
  | parse text => exact Engine.counts_parseAll h [text]
  | query lookup text context =>
      rw [engine_step_of_asks hfaithful (.inl rfl)]
      exact Engine.counts_parseAll h _
  | queryFirst lookup text context =>
      rw [engine_step_of_asks hfaithful (.inr rfl)]
      exact Engine.counts_parseAll h _

/-- Through a whole session the memory counts the lookups in the log. -/
theorem counts_run (hfaithful : s.engine.memory.Faithful) (h : s.engine.memory.Counts before)
    (steps : List Step) : (s.run steps).2.engine.memory.Counts (s.log before steps) := by
  induction steps generalizing s before with
  | nil => exact h
  | cons first rest ih =>
      exact ih (faithful_step hfaithful first) (counts_step hfaithful h first)

/-- **The counters are exact.** A session begins with an empty memory. After any steps the
remembered texts are those that were looked up since the memory was last cleared. There are as many
of them as different texts were looked up; as many lookups found nothing; and all lookups together
are as many as texts were looked up, repeats included.

A question looks up the text of its context first, if a text gives the context, and then its own, if
its context is somewhere: the engine is left as looking up these texts in this order leaves it. -/
theorem counters_by_log {s : Session} (h : s.engine.memory = {}) (steps : List Step) :
    let memory := (s.run steps).2.engine.memory
    let log := s.log [] steps
    ((∀ text, (memory.list? text).isSome ↔ text ∈ log) ∧
        memory.size = (distinct log).length ∧ memory.misses = (distinct log).length ∧
        memory.hits + memory.misses = log.length) ∧
      ∀ before step after lookup text context, steps = before ++ step :: after →
        step = .query lookup text context ∨ step = .queryFirst lookup text context →
        let reached := (s.run before).2
        let start := (reached.engine.resolve (reached.tree.viewBy lookup) reached.options context).1
        reached.looksUp step = context.texts ++ (if start.isSome then [text] else []) ∧
          (reached.step step).2.engine = reached.engine.parseAll (reached.looksUp step) := by
  intro memory log
  have hfaithful : s.engine.memory.Faithful := h ▸ Memory.faithful_empty
  have hcounts : memory.Counts log := counts_run hfaithful (h ▸ Memory.counts_empty) steps
  refine ⟨⟨hcounts.remembered, hcounts.size, hcounts.misses, hcounts.lookups⟩, ?_⟩
  rintro before step after lookup text context - hstep reached start
  have hreached : reached.engine.memory.Faithful := faithful_run hfaithful before
  refine ⟨?_, engine_step_of_asks hreached hstep⟩
  have hstart : start = context.place? (reached.tree.viewBy lookup) reached.options :=
    Engine.resolve_fst hreached _ _ context
  rw [hstart]
  rcases hstep with rfl | rfl <;> rfl

/-- After the memory was cleared one question has a context that a text finds, another one that a
text does not find, and a third one is asked nowhere. -/
def askedInContexts : List Step :=
  [.setRemembering true, .query .own "p".toList .root, .clearMemory,
    .query .own "li".toList (.selector "ul".toList),
    .queryFirst .own "li".toList (.selector "p".toList), .parse "ul".toList,
    .query .scanning "p".toList (.nodes [])]

/-- Four texts were looked up since then, one of them twice. -/
theorem counters_by_log_askedInContexts :
    let s : Session := { tree := .twoItems }
    let memory := (s.run askedInContexts).2.engine.memory
    s.engine.memory = {} ∧
      s.log [] askedInContexts = ["ul".toList, "li".toList, "p".toList, "ul".toList] ∧
      memory.size = 3 ∧ memory.misses = 3 ∧ memory.hits + memory.misses = 4 ∧
      (s.run (askedInContexts.take 4)).2.looksUp
        (.queryFirst .own "li".toList (.selector "p".toList)) = ["p".toList] := by
  intro s memory
  have hlog : s.log [] askedInContexts = ["ul".toList, "li".toList, "p".toList, "ul".toList] := by
    decide +kernel
  obtain ⟨⟨-, hsize, hmisses, hlookups⟩, hasks⟩ := counters_by_log (s := s) rfl askedInContexts
  rw [hlog] at hsize hmisses hlookups
  have hnowhere := (hasks (askedInContexts.take 4) _ (askedInContexts.drop 5) .own "li".toList
    (.selector "p".toList) rfl (.inr rfl)).1
  refine ⟨rfl, hlog, hsize, hmisses, hlookups, hnowhere.trans ?_⟩
  decide +kernel

end Session

end TreeSelect
