import TreeSelect.Proofs.Selector.Lexing
import TreeSelect.Selector.Parser
/-!
# Reading simple selectors

A simple selector is read from the tokens between two combinators, and between them stands no
space. So the tokens correspond to a join of words, and the join is a spelling of the selector: what
the reader keeps track of on its way, whether something, an id or an attribute clause was read, is
the order in which the grammar puts the parts.

## Main definitions

* `Words`: the texts of some operand tokens that follow each other without space.
* `Simple.ReadsFrom`: what is read from some tokens at a stage of the reading.

## Main statements

* `Simple.ofTokensFrom_eq_ok_iff`: the reader reads exactly what can be read stage by stage.
* `Simple.spelling_iff`: the spellings of a simple selector are the joins of words from which it is
  read.
-/

namespace TreeSelect

/-- An outcome is mapped to a success exactly if it is one. -/
theorem map_eq_ok_iff {ε α β : Type} {f : α → β} {x : Except ε α} {b : β} :
    x.map f = .ok b ↔ ∃ a, x = .ok a ∧ f a = b := by
  cases x <;> simp [Except.map]

/-- An outcome is mapped to an error exactly if it is that error. -/
theorem map_eq_error_iff {ε α β : Type} {f : α → β} {x : Except ε α} {e : ε} :
    x.map f = .error e ↔ x = .error e := by
  cases x <;> simp [Except.map]

/-! ### Words -/

/-- The texts of operand tokens that follow each other without space, each name going as far as it
can. -/
inductive Words : List Token → Text → Prop
  | nil : Words [] []
  | cons {token : Token} {tokens : List Token} {w r : Text} (word : token.Word w)
      (whole : token.endsInName = true → r.Stops isNameChar) (further : Words tokens r) :
      Words (token :: tokens) (w ++ r)

/-- A word starts with a character that is neither space nor a symbol. -/
theorem Token.Word.exists_cons {token : Token} {w : Text} (h : token.Word w) :
    ∃ c r, w = c :: r ∧ Text.isSpace c = false ∧ Combinator.ofSymbol? c = none := by
  cases h with
  | name start further =>
      obtain ⟨hspace, hsymbol, -⟩ := isNameStart_ne start
      exact ⟨_, _, rfl, hspace, hsymbol⟩
  | universal => exact ⟨_, _, rfl, by decide, by decide⟩
  | id isName => exact ⟨_, _, rfl, by decide, by decide⟩
  | className isName => exact ⟨_, _, rfl, by decide, by decide⟩
  | bracketed spelled => cases spelled <;> exact ⟨_, _, rfl, by decide, by decide⟩

namespace Words

variable {tokens : List Token} {w : Text}

/-- Only operands are joined. -/
theorem isCombinator (h : Words tokens w) : ∀ token ∈ tokens, token.isCombinator = false := by
  induction h with
  | nil => simp
  | cons word whole further ih =>
      rintro token htoken
      rcases List.mem_cons.mp htoken with rfl | htoken
      · exact word.isCombinator
      · exact ih token htoken

/-- A join of words starts with a character that is neither space nor a symbol. -/
theorem exists_cons (h : Words tokens w) (hne : tokens ≠ []) :
    ∃ c r, w = c :: r ∧ Text.isSpace c = false ∧ Combinator.ofSymbol? c = none := by
  cases h with
  | nil => exact absurd rfl hne
  | cons word whole further =>
      obtain ⟨c, r, rfl, hspace, hsymbol⟩ := word.exists_cons
      exact ⟨c, r ++ _, rfl, hspace, hsymbol⟩

/-- Only no words make the empty text. -/
theorem eq_nil_iff (h : Words tokens w) : w = [] ↔ tokens = [] := by
  constructor
  · intro hw
    cases tokens with
    | nil => rfl
    | cons token tokens =>
        obtain ⟨c, r, hcons, -⟩ := h.exists_cons (by simp)
        rw [hw] at hcons
        cases hcons
  · rintro rfl
    cases h
    rfl

end Words

/-! ### Stages of the reading -/

/-- The type that a token stands for. -/
def Token.type? : Token → Option TypeSelector
  | name n => some (.named n)
  | universal => some .universal
  | _ => none

namespace Simple

/-- A simple selector is read from some tokens at a stage of the reading: a type first, one id,
classes, and only attribute clauses behind an attribute clause. -/
inductive ReadsFrom : Progress → List Token → Simple → Prop
  | nil {p : Progress} : ReadsFrom p [] {}
  | type {p : Progress} {token : Token} {type : TypeSelector} {tokens : List Token} {s : Simple}
      (stands : token.type? = some type) (isOpen : p.afterAttribute = false)
      (first : p.atStart = true) (further : ReadsFrom { p with atStart := false } tokens s) :
      ReadsFrom p (token :: tokens) { s with tag := some type }
  | id {p : Progress} {n : Text} {tokens : List Token} {s : Simple}
      (isOpen : p.afterAttribute = false) (single : p.afterId = false)
      (further : ReadsFrom { p with atStart := false, afterId := true } tokens s) :
      ReadsFrom p (.id n :: tokens) { s with id := some n }
  | className {p : Progress} {n : Text} {tokens : List Token} {s : Simple}
      (isOpen : p.afterAttribute = false)
      (further : ReadsFrom { p with atStart := false } tokens s) :
      ReadsFrom p (.className n :: tokens) { s with classes := n :: s.classes }
  | bracketed {p : Progress} {token : AttributeToken} {tokens : List Token} {s : Simple}
      (further : ReadsFrom { p with atStart := false, afterAttribute := true } tokens s) :
      ReadsFrom p (.bracketed token :: tokens)
        { s with attributes := token.clause :: s.attributes }

variable {p : Progress} {tokens : List Token} {s : Simple}

/-- A token that stands for a type is read alike, whichever type it is. -/
theorem ofTokensFrom_type {token : Token} {type : TypeSelector}
    (stands : token.type? = some type) :
    ofTokensFrom p (token :: tokens) =
      if p.afterAttribute then .error (.attributeNotLast token.text)
      else if p.atStart then
        (ofTokensFrom { p with atStart := false } tokens).map fun s => { s with tag := some type }
      else .error (.misplacedType token.text) := by
  cases token with
  | name n =>
      cases stands
      simp only [ofTokensFrom]
  | universal =>
      cases stands
      simp only [ofTokensFrom]
  | _ => cases stands

/-- Whatever the reader reads is read stage by stage. -/
theorem readsFrom_of_ofTokensFrom (h : ofTokensFrom p tokens = .ok s) : ReadsFrom p tokens s := by
  induction tokens generalizing p s with
  | nil =>
      cases h
      exact .nil
  | cons token tokens ih =>
      have htype : ∀ type, token.type? = some type → ReadsFrom p (token :: tokens) s := by
        intro type stands
        rw [ofTokensFrom_type stands] at h
        split at h
        · cases h
        · rename_i hopen
          split at h
          · rename_i hfirst
            obtain ⟨s, hs, rfl⟩ := map_eq_ok_iff.mp h
            exact .type stands (by simpa using hopen) hfirst (ih hs)
          · cases h
      cases token with
      | name n => exact htype _ rfl
      | universal => exact htype _ rfl
      | bracketed clause =>
          simp only [ofTokensFrom] at h
          obtain ⟨s, hs, rfl⟩ := map_eq_ok_iff.mp h
          exact .bracketed (ih hs)
      | id n =>
          simp only [ofTokensFrom] at h
          split at h
          · cases h
          · rename_i hopen
            split at h
            · cases h
            · rename_i hsingle
              obtain ⟨s, hs, rfl⟩ := map_eq_ok_iff.mp h
              exact .id (by simpa using hopen) (by simpa using hsingle) (ih hs)
      | className n =>
          simp only [ofTokensFrom] at h
          split at h
          · cases h
          · rename_i hopen
            obtain ⟨s, hs, rfl⟩ := map_eq_ok_iff.mp h
            exact .className (by simpa using hopen) (ih hs)
      | combinator c =>
          simp only [ofTokensFrom] at h
          split at h <;> cases h

/-- **The reader reads exactly what can be read stage by stage.** -/
theorem ofTokensFrom_eq_ok_iff : ofTokensFrom p tokens = .ok s ↔ ReadsFrom p tokens s := by
  constructor
  · exact readsFrom_of_ofTokensFrom
  · intro h
    induction h with
    | nil => rfl
    | type stands isOpen first further ih =>
        rw [ofTokensFrom_type stands, ih]
        simp [isOpen, first, Except.map]
    | id isOpen single further ih =>
        rw [isOpen] at ih
        simp [ofTokensFrom, isOpen, single, ih, Except.map]
    | className isOpen further ih =>
        rw [isOpen] at ih
        simp [ofTokensFrom, isOpen, ih, Except.map]
    | bracketed further ih => simp [ofTokensFrom, ih, Except.map]

namespace ReadsFrom

/-- No type is read once something was read. -/
theorem tag_eq_none (h : ReadsFrom p tokens s) (hp : p.atStart = false) : s.tag = none := by
  induction h with
  | nil => rfl
  | type stands isOpen first further ih => rw [hp] at first; cases first
  | id isOpen single further ih => exact ih rfl
  | className isOpen further ih => exact ih rfl
  | bracketed further ih => exact ih rfl

/-- No second id is read. -/
theorem id_eq_none (h : ReadsFrom p tokens s) (hp : p.afterId = true) : s.id = none := by
  induction h with
  | nil => rfl
  | type stands isOpen first further ih => exact ih hp
  | id isOpen single further ih => rw [hp] at single; cases single
  | className isOpen further ih => exact ih hp
  | bracketed further ih => exact ih hp

/-- Nothing but attribute clauses is read behind an attribute clause. -/
theorem only_attributes (h : ReadsFrom p tokens s) (hp : p.afterAttribute = true) :
    s = { attributes := s.attributes } := by
  induction h with
  | nil => rfl
  | type stands isOpen first further ih => rw [hp] at isOpen; cases isOpen
  | id isOpen single further ih => rw [hp] at isOpen; cases isOpen
  | className isOpen further ih => rw [hp] at isOpen; cases isOpen
  | bracketed further ih => rw [ih rfl]

end ReadsFrom

end Simple

/-! ### Words of a spelling -/

/-- Attribute clauses start with a bracket. -/
theorem AttributesSpelling.stops {clauses : List AttributeClause} {w : Text}
    (h : AttributesSpelling clauses w) {p : Char → Bool} (hp : p '[' = false) : w.Stops p := by
  cases h with
  | nil => exact .nil
  | cons spelled further =>
      obtain ⟨token, -, hspelled⟩ := AttributeClause.spelling_iff.mp spelled
      cases hspelled <;> exact .cons hp

/-- An id and classes start with a sigil. -/
theorem MarksSpelling.stops {id : Option Text} {classes : List Text} {w : Text}
    (h : MarksSpelling id classes w) {p : Char → Bool} (hid : p '#' = false)
    (hclass : p '.' = false) : w.Stops p := by
  cases h with
  | nil => exact .nil
  | id isName further => exact .cons hid
  | className isName further => exact .cons hclass

/-- No name goes on into what follows a type. -/
theorem MarksSpelling.stops_append {id : Option Text} {classes : List Text} {w r : Text}
    {clauses : List AttributeClause} (h : MarksSpelling id classes w)
    (hr : AttributesSpelling clauses r) : Text.Stops isNameChar (w ++ r) :=
  (h.stops (by decide) (by decide)).append (hr.stops (by decide))

/-- A token that stands for a type is its spelling. -/
theorem Token.Word.typeSpelling {token : Token} {w : Text} (h : token.Word w)
    {type : TypeSelector} (stands : token.type? = some type) : TypeSpelling (some type) w := by
  cases h with
  | name start further =>
      cases stands
      exact .named start further
  | universal =>
      cases stands
      exact .universal
  | id isName => cases stands
  | className isName => cases stands
  | bracketed spelled => cases stands

/-- A type is spelled by a token that stands for it. -/
theorem TypeSpelling.exists_word {type : TypeSelector} {w : Text}
    (h : TypeSpelling (some type) w) :
    ∃ token : Token, token.Word w ∧ token.type? = some type := by
  cases h with
  | universal => exact ⟨.universal, .universal, rfl⟩
  | named start further => exact ⟨.name _, .name start further, rfl⟩

/-- Attribute clauses are read at every stage from the words of their spelling. -/
theorem AttributesSpelling.exists_words {clauses : List AttributeClause} {w : Text}
    (h : AttributesSpelling clauses w) :
    ∃ tokens, Words tokens w ∧ ∀ p, Simple.ReadsFrom p tokens { attributes := clauses } := by
  induction h with
  | nil => exact ⟨[], .nil, fun _ => .nil⟩
  | cons spelled further ih =>
      obtain ⟨token, rfl, hspelled⟩ := AttributeClause.spelling_iff.mp spelled
      obtain ⟨tokens, hwords, hread⟩ := ih
      refine ⟨.bracketed token :: tokens, .cons (.bracketed hspelled) ?_ hwords, fun p => ?_⟩
      · simp [Token.endsInName]
      · exact .bracketed (hread _)

/-- An id and classes are read before attribute clauses from the words of their spelling. -/
theorem MarksSpelling.exists_words {id : Option Text} {classes : List Text} {w : Text}
    (h : MarksSpelling id classes w) {clauses : List AttributeClause} {r : Text}
    (hr : AttributesSpelling clauses r) :
    ∃ tokens, Words tokens (w ++ r) ∧
      ∀ p : Simple.Progress, p.afterAttribute = false → (p.afterId = true → id = none) →
        Simple.ReadsFrom p tokens { id, classes, attributes := clauses } := by
  induction h with
  | nil =>
      obtain ⟨tokens, hwords, hread⟩ := hr.exists_words
      exact ⟨tokens, hwords, fun p _ _ => hread p⟩
  | @id n w classes isName further ih =>
      obtain ⟨tokens, hwords, hread⟩ := ih
      refine ⟨.id n :: tokens, ?_, fun p isOpen hid => ?_⟩
      · have hjoin := Words.cons (.id isName) (fun _ => further.stops_append hr) hwords
        simpa using hjoin
      · have single : p.afterId = false := by
          cases hafter : p.afterId with
          | false => rfl
          | true => cases hid hafter
        exact .id isOpen single (hread _ isOpen fun _ => rfl)
  | @className n w id classes isName further ih =>
      obtain ⟨tokens, hwords, hread⟩ := ih
      refine ⟨.className n :: tokens, ?_, fun p isOpen hid => ?_⟩
      · have hjoin := Words.cons (.className isName) (fun _ => further.stops_append hr) hwords
        simpa using hjoin
      · exact .className isOpen (hread _ isOpen hid)

/-- A simple selector is read from the words of its spelling. -/
theorem Simple.Spelling.exists_words {s : Simple} {w : Text} (h : s.Spelling w) :
    ∃ tokens, Words tokens w ∧ Simple.ReadsFrom {} tokens s := by
  obtain ⟨-, type, marks, attributes, rfl, htype, hmarks, hattributes⟩ := h
  obtain ⟨tokens, hwords, hread⟩ := hmarks.exists_words hattributes
  obtain ⟨tag, id, classes, clauses⟩ := s
  cases tag with
  | none =>
      cases htype
      exact ⟨tokens, hwords, hread _ rfl (by simp)⟩
  | some tag =>
      obtain ⟨token, hword, hstands⟩ := htype.exists_word
      refine ⟨token :: tokens, .cons hword (fun _ => hmarks.stops_append hattributes) hwords, ?_⟩
      exact .type hstands rfl rfl (hread _ rfl (by simp))

/-- What is read from a join of words is spelled by it, part by part. -/
theorem Words.exists_parts {tokens : List Token} {w : Text} (h : Words tokens w)
    {p : Simple.Progress} {s : Simple} (hread : Simple.ReadsFrom p tokens s) :
    ∃ type marks attributes, w = type ++ (marks ++ attributes) ∧ TypeSpelling s.tag type ∧
      MarksSpelling s.id s.classes marks ∧ AttributesSpelling s.attributes attributes := by
  induction hread generalizing w with
  | nil =>
      cases h
      exact ⟨[], [], [], rfl, .absent, .nil, .nil⟩
  | type stands isOpen first further ih =>
      cases h with
      | cons word whole hwords =>
          obtain ⟨type, marks, attributes, rfl, htype, hmarks, hattributes⟩ := ih hwords
          rw [further.tag_eq_none rfl] at htype
          cases htype
          exact ⟨_, marks, attributes, rfl, word.typeSpelling stands, hmarks, hattributes⟩
  | id isOpen single further ih =>
      cases h with
      | cons word whole hwords =>
          obtain ⟨type, marks, attributes, rfl, htype, hmarks, hattributes⟩ := ih hwords
          have htag := further.tag_eq_none rfl
          rw [htag] at htype
          rw [further.id_eq_none rfl] at hmarks
          cases htype
          cases word with
          | id isName =>
              refine ⟨[], _, attributes, ?_, ?_, .id isName hmarks, hattributes⟩
              · simp
              · simpa [htag] using TypeSpelling.absent
  | className isOpen further ih =>
      cases h with
      | cons word whole hwords =>
          obtain ⟨type, marks, attributes, rfl, htype, hmarks, hattributes⟩ := ih hwords
          have htag := further.tag_eq_none rfl
          rw [htag] at htype
          cases htype
          cases word with
          | className isName =>
              refine ⟨[], _, attributes, ?_, ?_, .className isName hmarks, hattributes⟩
              · simp
              · simpa [htag] using TypeSpelling.absent
  | bracketed further ih =>
      cases h with
      | cons word whole hwords =>
          obtain ⟨type, marks, attributes, rfl, htype, hmarks, hattributes⟩ := ih hwords
          rw [further.only_attributes rfl] at htype hmarks ⊢
          cases htype
          cases hmarks
          cases word with
          | bracketed spelled =>
              have hclause := AttributeClause.spelling_iff.mpr ⟨_, rfl, spelled⟩
              exact ⟨[], [], _, rfl, .absent, .nil, .cons hclause hattributes⟩

/-- **The spellings of a simple selector are the joins of words from which it is read.** -/
theorem Simple.spelling_iff {s : Simple} {w : Text} :
    s.Spelling w ↔
      ∃ tokens, tokens ≠ [] ∧ Words tokens w ∧ Simple.ofTokens tokens = .ok s := by
  constructor
  · intro h
    obtain ⟨tokens, hwords, hread⟩ := h.exists_words
    exact ⟨tokens, fun hnil => h.1 (hwords.eq_nil_iff.mpr hnil), hwords,
      ofTokensFrom_eq_ok_iff.mpr hread⟩
  · rintro ⟨tokens, hne, hwords, hread⟩
    exact ⟨fun hnil => hne (hwords.eq_nil_iff.mp hnil),
      hwords.exists_parts (ofTokensFrom_eq_ok_iff.mp hread)⟩

end TreeSelect
