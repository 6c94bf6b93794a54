import TreeSelect.Proofs.Selector.Simples
/-!
# Canonical texts are spellings

A selector is legal if its parts could have been read: its names are names, its operators are
operators, no operand holds both quotes and no simple selector is empty. Spelled selectors are
legal, and the canonical text of a legal selector is one of its spellings.

## Main definitions

* `AttributeClause.Legal`, `Simple.Legal`, `Selector.Legal`: selectors that can be written.

## Main statements

* `Selector.Spelling.legal`: what is spelled is legal.
* `Selector.Legal.spelling_text`: the canonical text of a legal selector spells it.
-/

namespace TreeSelect

/-! ### Legal selectors -/

/-- A name that a type may have. -/
def TypeSelector.Legal : TypeSelector → Prop
  | universal => True
  | named name => ∃ c n, name = c :: n ∧ isNameStart c = true ∧ ∀ x ∈ n, isNameChar x = true

/-- A clause with a name, and with an operator and an operand that one kind of quote can enclose
if it has any. -/
def AttributeClause.Legal (clause : AttributeClause) : Prop :=
  IsName clause.name ∧
    (clause.test = .present ∨
      ∃ operator operand, clause.test = .ofOperator operator operand ∧ operator ≠ [] ∧
        (∀ c ∈ operator, isOperatorChar c = true) ∧ ¬ ('"' ∈ operand ∧ '\x27' ∈ operand))

/-- A simple selector that asks something, all parts of which can be written. -/
structure Simple.Legal (s : Simple) : Prop where
  /-- Something is asked. -/
  isEmpty_eq_false : s.isEmpty = false
  /-- The type can be written. -/
  tag : ∀ type ∈ s.tag, type.Legal
  /-- The id is a name. -/
  id : ∀ name ∈ s.id, IsName name
  /-- The classes are names. -/
  classes : ∀ name ∈ s.classes, IsName name
  /-- The clauses can be written. -/
  attributes : ∀ clause ∈ s.attributes, clause.Legal

/-- A chain of legal simple selectors. -/
def Selector.Legal (s : Selector) : Prop :=
  ∀ simple ∈ s.simples, simple.Legal

/-! ### Spelled selectors are legal -/

/-- A spelled operand does not hold both quotes. -/
theorem OperandSpelling.not_both {v x : Text} (h : OperandSpelling v x) :
    ¬ ('"' ∈ v ∧ '\x27' ∈ v) := by
  rintro ⟨hdouble, hsingle⟩
  cases h with
  | @quoted g₁ g₂ q before quote inside after =>
      simp only [isQuote, Bool.or_eq_true, beq_iff_eq] at quote
      rcases quote with rfl | rfl
      · exact inside hdouble
      · exact inside hsingle
  | bare before nonempty inside first apart last after => cases inside '"' hdouble

/-- A spelled clause is legal. -/
theorem AttributeClause.Spelling.legal {clause : AttributeClause} {a : Text}
    (h : clause.Spelling a) : clause.Legal := by
  cases h with
  | present spelled =>
      cases spelled with
      | present before isName after => exact ⟨isName, .inl rfl⟩
  | condition spelled =>
      cases spelled with
      | condition before isName after nonempty isOperator spelled =>
          exact ⟨isName, .inr ⟨_, _, rfl, nonempty, isOperator, spelled.not_both⟩⟩

/-- Spelled clauses are legal. -/
theorem AttributesSpelling.legal {clauses : List AttributeClause} {w : Text}
    (h : AttributesSpelling clauses w) : ∀ clause ∈ clauses, clause.Legal := by
  induction h with
  | nil => simp
  | cons spelled further ih => exact List.forall_mem_cons.mpr ⟨spelled.legal, ih⟩

/-- A spelled id and spelled classes are names. -/
theorem MarksSpelling.isName {id : Option Text} {classes : List Text} {w : Text}
    (h : MarksSpelling id classes w) :
    (∀ name ∈ id, IsName name) ∧ ∀ name ∈ classes, IsName name := by
  induction h with
  | nil => simp
  | id isName further ih => simpa [isName] using ih.2
  | className isName further ih => exact ⟨ih.1, List.forall_mem_cons.mpr ⟨isName, ih.2⟩⟩

/-- A spelled simple selector is legal. -/
theorem Simple.Spelling.legal {s : Simple} {w : Text} (h : s.Spelling w) : s.Legal := by
  obtain ⟨hne, type, marks, attributes, rfl, htype, hmarks, hattributes⟩ := h
  obtain ⟨tag, id, classes, clauses⟩ := s
  have hnames := hmarks.isName
  refine ⟨?_, fun t ht => ?_, hnames.1, hnames.2, hattributes.legal⟩
  · -- an empty simple selector has the empty spelling only
    refine Bool.eq_false_iff.mpr fun hempty => hne ?_
    simp only [isEmpty, Bool.and_eq_true, Option.isNone_iff_eq_none, List.isEmpty_iff] at hempty
    obtain ⟨⟨⟨rfl, rfl⟩, rfl⟩, rfl⟩ := hempty
    cases htype
    cases hmarks
    cases hattributes
    rfl
  · cases htype with
    | absent => cases ht
    | universal =>
        cases ht
        trivial
    | named start further =>
        cases ht
        exact ⟨_, _, rfl, start, further⟩

/-- The simple selectors behind a head are legal. -/
theorem ChainSpelling.legal {rest : List (Combinator × Simple)} {r : Text}
    (h : ChainSpelling rest r) : ∀ step ∈ rest, step.2.Legal := by
  induction h with
  | nil => simp
  | cons separated spelled further ih => exact List.forall_mem_cons.mpr ⟨spelled.legal, ih⟩

/-- **A spelled selector is legal.** -/
theorem Selector.Spelling.legal {s : Selector} {t : Text} (h : s.Spelling t) : s.Legal := by
  obtain ⟨before, head, rest, after, rfl, hbefore, hhead, hrest, hafter⟩ := h
  intro simple hsimple
  rcases List.mem_cons.mp hsimple with rfl | hsimple
  · exact hhead.legal
  · obtain ⟨step, hstep, rfl⟩ := List.mem_map.mp hsimple
    exact hrest.legal step hstep

/-! ### Canonical texts of legal selectors -/

/-- One blank is spacing. -/
theorem spacing_blank : Spacing [' '] := by
  simp [Spacing, Text.isSpace]

/-- The quote that is put around an operand is not in it. -/
theorem AttributeClause.quoteFor_notMem {v : Text} (h : ¬ ('"' ∈ v ∧ '\x27' ∈ v)) :
    isQuote (quoteFor v) = true ∧ quoteFor v ∉ v := by
  unfold quoteFor
  split
  · rename_i hdouble
    exact ⟨by decide, fun hsingle => h ⟨hdouble, hsingle⟩⟩
  · rename_i hnot
    exact ⟨by decide, hnot⟩

/-- The canonical text of a legal clause spells it. -/
theorem AttributeClause.Legal.spelling_text {clause : AttributeClause} (h : clause.Legal) :
    clause.Spelling clause.text := by
  obtain ⟨name, test⟩ := clause
  obtain ⟨hname, rfl | ⟨operator, operand, rfl, hne, hoperator, hquotes⟩⟩ := h
  · refine .present ?_
    have hspelled := AttributeToken.Spelling.present spacing_nil hname spacing_nil
    simpa [text, AttributeTest.operator?] using hspelled
  · refine .condition ?_
    obtain ⟨hquote, hinside⟩ := quoteFor_notMem hquotes
    have hoperand := OperandSpelling.quoted spacing_nil hquote hinside spacing_nil
    have hspelled := AttributeToken.Spelling.condition spacing_nil hname spacing_nil hne hoperator
      hoperand
    simpa [text] using hspelled

/-- The canonical texts of legal clauses spell them. -/
theorem attributesSpelling_text {clauses : List AttributeClause}
    (h : ∀ clause ∈ clauses, clause.Legal) :
    AttributesSpelling clauses (clauses.flatMap AttributeClause.text) := by
  induction clauses with
  | nil => exact .nil
  | cons clause clauses ih =>
      have hclause := (h clause (by simp)).spelling_text
      exact .cons hclause (ih fun other hother => h other (by simp [hother]))

/-- The canonical texts of an id and classes spell them. -/
theorem marksSpelling_text {id : Option Text} {classes : List Text}
    (hid : ∀ name ∈ id, IsName name) (hclasses : ∀ name ∈ classes, IsName name) :
    MarksSpelling id classes ((id.map ('#' :: ·)).getD [] ++ classes.flatMap ('.' :: ·)) := by
  have hlist : MarksSpelling none classes (classes.flatMap ('.' :: ·)) := by
    induction classes with
    | nil => exact .nil
    | cons name classes ih =>
        exact .className (hclasses name (by simp)) (ih fun other hother =>
          hclasses other (by simp [hother]))
  cases id with
  | none => exact hlist
  | some name => exact .id (hid name rfl) hlist

/-- The canonical text of a legal type spells it. -/
theorem typeSpelling_text {tag : Option TypeSelector} (h : ∀ type ∈ tag, type.Legal) :
    TypeSpelling tag ((tag.map TypeSelector.text).getD []) := by
  cases tag with
  | none => exact .absent
  | some type =>
      cases type with
      | universal => exact .universal
      | named name =>
          obtain ⟨c, n, rfl, hstart, hfurther⟩ := h _ rfl
          exact .named hstart hfurther

/-- The canonical text of a simple selector that asks something, part by part. -/
theorem Simple.text_of_not_isEmpty {s : Simple} (h : s.isEmpty = false) :
    s.text = (s.tag.map TypeSelector.text).getD [] ++
      (((s.id.map ('#' :: ·)).getD [] ++ s.classes.flatMap ('.' :: ·)) ++
        s.attributes.flatMap AttributeClause.text) := by
  simp [text, h]

/-- The canonical text of a clause is not empty. -/
theorem AttributeClause.text_ne_nil (clause : AttributeClause) : clause.text ≠ [] := by
  unfold text
  split <;> simp

/-- The canonical text of a legal simple selector is not empty. -/
theorem Simple.Legal.text_ne_nil {s : Simple} (h : s.Legal) : s.text ≠ [] := by
  intro hnil
  rw [text_of_not_isEmpty h.isEmpty_eq_false] at hnil
  simp only [List.append_eq_nil_iff] at hnil
  obtain ⟨htype, ⟨hid, hclasses⟩, hattributes⟩ := hnil
  have htag : s.tag = none := by
    have hspelled := typeSpelling_text h.tag
    rw [htype] at hspelled
    generalize s.tag = tag at hspelled ⊢
    cases hspelled
    rfl
  have hnoId : s.id = none := by
    cases hs : s.id with
    | none => rfl
    | some name => simp [hs] at hid
  have hnoClass : s.classes = [] := by
    cases hs : s.classes with
    | nil => rfl
    | cons name classes => simp [hs] at hclasses
  have hnoClause : s.attributes = [] := by
    cases hs : s.attributes with
    | nil => rfl
    | cons clause clauses => simp [hs, AttributeClause.text_ne_nil] at hattributes
  have hempty := h.isEmpty_eq_false
  simp [isEmpty, htag, hnoId, hnoClass, hnoClause] at hempty

/-- The canonical text of a legal simple selector spells it. -/
theorem Simple.Legal.spelling_text {s : Simple} (h : s.Legal) : s.Spelling s.text :=
  ⟨h.text_ne_nil, _, _, _, text_of_not_isEmpty h.isEmpty_eq_false, typeSpelling_text h.tag,
    marksSpelling_text h.id h.classes, attributesSpelling_text h.attributes⟩

/-- A combinator is spelled with one space on each side of its symbol. -/
theorem Combinator.spelling_spaced (c : Combinator) : c.Spelling c.spaced := by
  have hsymbol : ∀ {x : Char} {c : Combinator}, c.Symbol x →
      c.Spelling ([' '] ++ x :: [' ']) := fun h => .symbol h spacing_blank spacing_blank
  cases c with
  | descendant => exact .descendant (by simp [spaced]) spacing_blank
  | child => exact hsymbol .child
  | reverseChild => exact hsymbol .reverseChild
  | nextSibling => exact hsymbol .nextSibling
  | subsequentSibling => exact hsymbol .subsequentSibling

/-- The canonical text of what follows a head, step by step. -/
def stepsText (rest : List (Combinator × Simple)) : Text :=
  rest.flatMap fun (c, simple) => c.spaced ++ simple.text

/-- The canonical text of legal steps spells them. -/
theorem chainSpelling_text {rest : List (Combinator × Simple)}
    (h : ∀ step ∈ rest, step.2.Legal) : ChainSpelling rest (stepsText rest) := by
  induction rest with
  | nil => exact .nil
  | cons step rest ih =>
      obtain ⟨c, simple⟩ := step
      have hsimple : simple.Legal := h (c, simple) (by simp)
      have hspelled := ChainSpelling.cons c.spelling_spaced hsimple.spelling_text
        (ih fun other hother => h other (by simp [hother]))
      simpa [stepsText] using hspelled

/-- The canonical text of a selector is that of its head and that of its steps. -/
theorem Selector.text_eq (s : Selector) : s.text = s.head.text ++ stepsText s.rest := rfl

/-- **The canonical text of a legal selector spells it.** -/
theorem Selector.Legal.spelling_text {s : Selector} (h : s.Legal) : s.Spelling s.text := by
  have hhead : s.head.Legal := h s.head (by simp [simples])
  have hrest : ∀ step ∈ s.rest, step.2.Legal := fun step hstep =>
    h step.2 (List.mem_cons_of_mem _ (List.mem_map_of_mem hstep))
  exact ⟨[], _, _, [], by simp [text_eq], spacing_nil, hhead.spelling_text,
    chainSpelling_text hrest, spacing_nil⟩

end TreeSelect
