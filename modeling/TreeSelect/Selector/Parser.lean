import TreeSelect.Selector.Token.Reader
/-!
# Reading selectors

A clause is a chain. The first combinator cuts it into a simple selector and a shorter chain; both
sides of a combinator need a token. The right side is read before the left one, so of several
malformed simple selectors the rightmost is reported, while a missing operand is reported where it
is met first from the left.

The clauses of a selector list are separated by commas. A comma inside brackets or quotes does not
separate; for this the text is scanned with a nesting depth and the quote that is open, without
looking at tokens. A bracket or quote that is still open at the end of the text cannot have meant
the clauses behind it. Its clause ends at the first comma after the opener, and what follows is cut
anew, so a malformed clause does not take the others with it.

Each clause is read on its own. The lenient reading keeps the clauses that are well formed and
reports the others; the strict one fails on the first that is not.

## Main definitions

* `Simple.ofTokens`: tokens without a combinator as one simple selector.
* `cutAtCombinator`, `Selector.ofTokens`: any tokens as a chain.
* `Selector.parse`: a clause as a chain.
* `Nesting`, `Nesting.step`: the state of the scan for commas.
* `Clause.commaAt?`: the first comma that separates.
* `Clause.unclosed?`: the text from an opener on that is never closed.
* `Clause.split`: the clauses of a text.
* `SelectorList.Outcome`, `SelectorList.read`: the selectors of a text and its rejected clauses.
* `SelectorList.parse`: the selectors alone.
* `SelectorList.parseStrict`: all selectors, or the first rejected clause.
-/

namespace TreeSelect

/-! ### From tokens to selectors -/

/-- How far the reading of a simple selector has come. -/
structure Simple.Progress where
  /-- Nothing has been read. -/
  atStart : Bool := true
  /-- An id has been read. -/
  afterId : Bool := false
  /-- An attribute clause has been read. -/
  afterAttribute : Bool := false
deriving DecidableEq, Repr

/-- Reads the rest of a simple selector. After an attribute clause only further clauses may
follow; a type must be the first token; and there is at most one id. -/
def Simple.ofTokensFrom (p : Simple.Progress) : List Token → Except ClauseError Simple
  | [] => .ok {}
  | .bracketed token :: rest =>
    (ofTokensFrom { p with atStart := false, afterAttribute := true } rest).map fun s =>
      { s with attributes := token.clause :: s.attributes }
  | token :: rest =>
    if p.afterAttribute then .error (.attributeNotLast token.text)
    else
      match token with
      | .name n =>
        if p.atStart then
          (ofTokensFrom { p with atStart := false } rest).map fun s =>
            { s with tag := some (.named n) }
        else .error (.misplacedType token.text)
      | .universal =>
        if p.atStart then
          (ofTokensFrom { p with atStart := false } rest).map fun s =>
            { s with tag := some .universal }
        else .error (.misplacedType token.text)
      | .id n =>
        if p.afterId then .error .duplicateId
        else
          (ofTokensFrom { p with atStart := false, afterId := true } rest).map fun s =>
            { s with id := some n }
      | .className n =>
        (ofTokensFrom { p with atStart := false } rest).map fun s =>
          { s with classes := n :: s.classes }
      | .combinator c => .error (.missingOperand c)
      | .bracketed clause => .error (.attributeNotLast clause.text)

/-- Reads tokens without a combinator as one simple selector: an optional type, then an id and
classes in any order, then attribute clauses. -/
def Simple.ofTokens (tokens : List Token) : Except ClauseError Simple :=
  ofTokensFrom {} tokens

/-- The tokens before the first combinator, and that combinator with the tokens behind it. -/
def cutAtCombinator : List Token → List Token × Option (Combinator × List Token)
  | [] => ([], none)
  | .combinator c :: rest => ([], some (c, rest))
  | token :: rest =>
    let (before, cut) := cutAtCombinator rest
    (token :: before, cut)

/-- Behind the first combinator there are fewer tokens than in the whole list. -/
theorem length_lt_of_cutAtCombinator {tokens left right : List Token} {c : Combinator}
    (h : cutAtCombinator tokens = (left, some (c, right))) : right.length < tokens.length := by
  induction tokens generalizing left with
  | nil => simp [cutAtCombinator] at h
  | cons token rest ih =>
    cases token with
    | combinator d =>
      simp only [cutAtCombinator, Prod.mk.injEq, Option.some.injEq] at h
      obtain ⟨-, -, rfl⟩ := h
      exact Nat.lt_succ_self _
    | _ =>
      simp only [cutAtCombinator, Prod.mk.injEq] at h
      exact Nat.lt_succ_of_lt (ih (Prod.ext rfl h.2))

/-- Whether no operand stands at the start of the tokens behind a combinator. -/
def lacksOperand : List Token → Bool
  | [] => true
  | token :: _ => token.isCombinator

/-- Reads tokens as a chain. -/
def Selector.ofTokens (tokens : List Token) : Except ClauseError Selector :=
  match _hcut : cutAtCombinator tokens with
  | (operand, none) => (Simple.ofTokens operand).map fun simple => ⟨simple, []⟩
  | (left, some (c, right)) =>
    if left.isEmpty || lacksOperand right then .error (.missingOperand c)
    else
      match ofTokens right with
      | .error e => .error e
      | .ok chain =>
        (Simple.ofTokens left).map fun simple => ⟨simple, (c, chain.head) :: chain.rest⟩
termination_by tokens.length
decreasing_by exact length_lt_of_cutAtCombinator _hcut

/-- Reads a clause as a chain. -/
def Selector.parse (clause : Text) : Except ClauseError Selector :=
  match tokenize clause with
  | .error e => .error e
  | .ok [] => .error .emptyClause
  | .ok tokens => Selector.ofTokens tokens

/-! ### Cutting a selector list into clauses -/

/-- How deep in brackets a place in a text is, and the quote that is open there. -/
structure Nesting where
  /-- The number of open brackets. -/
  depth : Nat := 0
  /-- The open quote. -/
  quote : Option Char := none
deriving DecidableEq, Repr

namespace Nesting

/-- Whether a place is outside all brackets and quotes. -/
def isTop (n : Nesting) : Bool :=
  n.depth == 0 && n.quote.isNone

/-- The nesting behind a character. Within quotes only the same quote counts, and a closing
bracket too many changes nothing. -/
def step (n : Nesting) (c : Char) : Nesting :=
  match n.quote with
  | some open_ => if c == open_ then { n with quote := none } else n
  | none =>
    if isQuote c then { n with quote := some c }
    else if c == '[' then { n with depth := n.depth + 1 }
    else if c == ']' then { n with depth := n.depth - 1 }
    else n

end Nesting

namespace Clause

/-- The number of characters before the first comma at the top, from a given nesting on, `index`
characters of the text being behind. -/
def commaFrom? (n : Nesting) (index : Nat) : Text → Option Nat
  | [] => none
  | c :: rest =>
    if c == ',' && n.isTop then some index else commaFrom? (n.step c) (index + 1) rest

/-- The number of characters before the first comma that separates. -/
def commaAt? (text : Text) : Option Nat :=
  commaFrom? {} 0 text

/-- The text from the last opener that leaves the top, if the top is not reached again; `opened`
is that text as far as it is known. -/
def unclosedFrom? (n : Nesting) (opened : Option Text) : Text → Option Text
  | [] => opened
  | c :: rest =>
    let next := n.step c
    unclosedFrom? next
      (if next.isTop then none else if n.isTop then some (c :: rest) else opened) rest

/-- The text from the bracket or quote on that is still open at the end. -/
def unclosed? (text : Text) : Option Text :=
  unclosedFrom? {} none text

/-- The number of characters of the first clause, if a comma ends it: the first comma that
separates or, where none does, the first comma behind an opener that is never closed. -/
def firstEnd? (text : Text) : Option Nat :=
  match commaAt? text with
  | some index => some index
  | none =>
    match unclosed? text with
    | none => none
    | some opened =>
      let behind := opened.dropWhile (· != ',')
      if behind.isEmpty then none else some (text.length - behind.length)

/-- A comma of a text stands before its end. -/
theorem commaFrom?_lt {n : Nesting} {i k : Nat} {text : Text} (h : commaFrom? n i text = some k) :
    k < i + text.length := by
  induction text generalizing n i with
  | nil => simp [commaFrom?] at h
  | cons c rest ih =>
    simp only [commaFrom?] at h
    split at h
    · cases h
      simp
    · have := ih h
      simp only [List.length_cons]
      omega

/-- The end of the first clause stands before the end of the text. -/
theorem firstEnd?_lt {text : Text} {k : Nat} (h : firstEnd? text = some k) :
    k < text.length := by
  simp only [firstEnd?] at h
  split at h
  · rename_i index hcomma
    cases h
    simpa using commaFrom?_lt hcomma
  · split at h
    · cases h
    · rename_i opened _
      split at h
      · cases h
      · rename_i hbehind
        cases h
        have : text ≠ [] := by
          rintro rfl
          rename_i hopened
          simp only [unclosed?, unclosedFrom?] at hopened
          cases hopened
        have h₁ := List.length_pos_iff.2 this
        have h₂ : 0 < (opened.dropWhile (· != ',')).length := by
          simpa [List.length_pos_iff] using hbehind
        omega

/-- The clauses of a text that is not blank, each trimmed; a blank text has one empty clause. -/
def pieces (text : Text) : List Text :=
  match _hend : firstEnd? text with
  | none => [Text.trim text]
  | some k => Text.trim (text.take k) :: pieces (text.drop (k + 1))
termination_by text.length
decreasing_by
  have := firstEnd?_lt _hend
  simp only [List.length_drop]
  omega

/-- The clauses of a text, each trimmed. Empty clauses are kept, so that they are reported, but a
blank text has no clause at all. -/
def split (text : Text) : List Text :=
  if text.all Text.isBlank then [] else pieces text

end Clause

/-! ### Reading selector lists -/

namespace SelectorList

/-- What a text holds: its selectors and its rejected clauses, each in text order. -/
structure Outcome where
  /-- The selectors of the well-formed clauses. -/
  selectors : SelectorList := []
  /-- The other clauses, with the reason. -/
  rejected : List Rejected := []
deriving DecidableEq, Repr

/-- Reads clauses one by one. -/
def readClauses : List Text → Outcome
  | [] => {}
  | clause :: rest =>
    let further := readClauses rest
    match Selector.parse clause with
    | .ok selector => { further with selectors := selector :: further.selectors }
    | .error error => { further with rejected := ⟨clause, error⟩ :: further.rejected }

/-- Reads a text, keeping its well-formed clauses and reporting the others. -/
def read (text : Text) : Outcome :=
  readClauses (Clause.split text)

/-- Reads a text, dropping what is not well formed. -/
def parse (text : Text) : SelectorList :=
  (read text).selectors

/-- Reads a text, failing on its first clause that is not well formed. -/
def parseStrict (text : Text) : Except Rejected SelectorList :=
  match read text with
  | ⟨selectors, []⟩ => .ok selectors
  | ⟨_, first :: _⟩ => .error first

end SelectorList

end TreeSelect
