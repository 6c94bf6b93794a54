import TreeSelect.Selector.Token
/-!
# Reading the tokens of a clause

Tokens are read from left to right, each from the longest run of characters that belongs to it.
Space is a token only between two operands, where it is the descendant combinator; next to a
symbol and at the two ends of a clause it is nothing.

## Main definitions

* `AttributeToken.read`: a bracketed clause, from behind its bracket.
* `Token.read`: one token, or a run of space that is none.
* `Token.readAll`: all tokens up to the first lexical error.
* `tokenize`: all tokens of a clause without a lexical error.

## Main statements

* `Token.length_rest_read_le`: reading a token leaves no more text than stood behind its first
  character, which is why the reading of a clause ends.
-/

namespace TreeSelect

/-- What was read and the place behind it, or why nothing was. -/
abbrev Reading (α : Type) := Except ClauseError (α × Cursor)

/-- Applies a function to what was read. -/
def Reading.map {α β : Type} (f : α → β) : Reading α → Reading β
  | .ok (a, behind) => .ok (f a, behind)
  | .error e => .error e

/-- Reads the name behind a sigil. -/
def readName (sigil : Char) (c : Cursor) : Reading Text :=
  let name := c.run isNameChar
  if name.isEmpty then .error (.expectedName sigil c.offset)
  else .ok (name, c.skip isNameChar)

/-- Reads a quoted operand from behind the quote at `opening`, up to the same quote. -/
def readQuoted (quote : Char) (opening : Nat) (c : Cursor) : Reading Text :=
  let behind := c.skip (· != quote)
  match behind.rest with
  | [] => .error (.unclosedQuote opening)
  | _ :: rest => .ok (c.run (· != quote), ⟨behind.offset + 1, rest⟩)

/-- Reads the bracket that closes the clause opened at `opening`. -/
def readClosing (opening : Nat) (c : Cursor) : Reading Unit :=
  match c.rest with
  | [] => .error (.unclosedAttribute opening)
  | ']' :: rest => .ok ((), ⟨c.offset + 1, rest⟩)
  | found :: _ => .error (.unexpectedCharacter found c.offset)

/-- Whether a character may stand in an operand without quotes. -/
def isBareChar (c : Char) : Bool :=
  c != ']' && c != '[' && !isQuote c

/-- Reads an operand without quotes and the bracket behind it. Blanks before the bracket do not
belong to the operand, of which something must be left. -/
def readBare (opening : Nat) (c : Cursor) : Reading Text :=
  let behind := c.skip isBareChar
  match behind.rest with
  | [] => .error (.unclosedAttribute opening)
  | ']' :: rest =>
    let operand := (c.run isBareChar).trimEnd
    if operand.isEmpty then .error (.unexpectedCharacter ']' behind.offset)
    else .ok (operand, ⟨behind.offset + 1, rest⟩)
  | found :: _ => .error (.unexpectedCharacter found behind.offset)

/-- Reads an operand, quoted or not, and the bracket that closes its clause. -/
def readOperand (opening : Nat) (c : Cursor) : Reading Text :=
  match c.rest with
  | [] => .error (.unclosedAttribute opening)
  | first :: rest =>
    if isQuote first then
      match readQuoted first c.offset ⟨c.offset + 1, rest⟩ with
      | .error e => .error e
      | .ok (operand, behind) => (readClosing opening behind.skipSpace).map fun _ => operand
    else readBare opening c

/-- Reads a bracketed clause from behind the bracket at `opening`. -/
def AttributeToken.read (opening : Nat) (c : Cursor) : Reading AttributeToken :=
  let atName := c.skipSpace
  let name := atName.run isNameChar
  let behindName := (atName.skip isNameChar).skipSpace
  if name.isEmpty then
    if atName.rest.isEmpty then .error (.unclosedAttribute opening)
    else .error (.expectedName '[' atName.offset)
  else
    match behindName.rest with
    | [] => .error (.unclosedAttribute opening)
    | ']' :: rest => .ok (⟨name, none⟩, ⟨behindName.offset + 1, rest⟩)
    | found :: _ =>
      let operator := behindName.run isOperatorChar
      if operator.isEmpty then .error (.unexpectedCharacter found behindName.offset)
      else
        (readOperand opening (behindName.skip isOperatorChar).skipSpace).map fun operand =>
          ⟨name, some (operator, operand)⟩

/-- Whether a text goes on with something other than a combinator's symbol. -/
def startsOperand : Text → Bool
  | [] => false
  | c :: _ => (Combinator.ofSymbol? c).isNone

namespace Token

/-- Reads the token that starts with `first` at `offset`, or the run of space that starts there.
The flag tells whether the last token so far is an operand. -/
def read (afterOperand : Bool) (offset : Nat) (first : Char) (rest : Text) :
    Reading (Option Token) :=
  let behind : Cursor := ⟨offset + 1, rest⟩
  if Text.isSpace first then
    let next := behind.skipSpace
    if afterOperand && startsOperand next.rest then
      .ok (some (combinator .descendant), next)
    else .ok (none, next)
  else
    match Combinator.ofSymbol? first with
    | some symbol => .ok (some (combinator symbol), behind)
    | none =>
      match first with
      | '*' => .ok (some universal, behind)
      | '#' => (readName '#' behind).map fun n => some (id n)
      | '.' => (readName '.' behind).map fun n => some (className n)
      | '[' => (AttributeToken.read offset behind).map fun clause => some (bracketed clause)
      | _ =>
        if isNameStart first then
          .ok (some (name (first :: behind.run isNameChar)), behind.skip isNameChar)
        else .error (.unexpectedCharacter first offset)

end Token

/-! ### Reading moves forward -/

/-- Applying a function to what was read does not move the place. -/
theorem Reading.map_eq_ok {α β : Type} {f : α → β} {r : Reading α} {b : β} {next : Cursor} :
    r.map f = .ok (b, next) ↔ ∃ a, r = .ok (a, next) ∧ f a = b := by
  cases r with
  | error e => simp [Reading.map]
  | ok p =>
    obtain ⟨a, behind⟩ := p
    simp only [Reading.map, Except.ok.injEq, Prod.mk.injEq]
    constructor
    · rintro ⟨rfl, rfl⟩
      exact ⟨a, ⟨rfl, rfl⟩, rfl⟩
    · rintro ⟨a', ⟨rfl, rfl⟩, rfl⟩
      exact ⟨rfl, rfl⟩

/-- Reading a name leaves no more text than there was. -/
theorem length_rest_readName_le {sigil : Char} {c next : Cursor} {name : Text}
    (h : readName sigil c = .ok (name, next)) : next.rest.length ≤ c.rest.length := by
  simp only [readName] at h
  split at h
  · cases h
  · cases h
    exact c.length_rest_skip_le isNameChar

/-- Reading a quoted operand leaves no more text than there was. -/
theorem length_rest_readQuoted_le {quote : Char} {opening : Nat} {c next : Cursor} {operand : Text}
    (h : readQuoted quote opening c = .ok (operand, next)) :
    next.rest.length ≤ c.rest.length := by
  simp only [readQuoted] at h
  split at h
  · cases h
  · rename_i rest hrest
    cases h
    have hle := c.length_rest_skip_le (· != quote)
    rw [hrest, List.length_cons] at hle
    exact Nat.le_of_succ_le hle

/-- Reading a closing bracket leaves no more text than there was. -/
theorem length_rest_readClosing_le {opening : Nat} {c next : Cursor} {u : Unit}
    (h : readClosing opening c = .ok (u, next)) : next.rest.length ≤ c.rest.length := by
  simp only [readClosing] at h
  split at h
  · cases h
  · rename_i rest hrest
    cases h
    simp only [hrest, List.length_cons]
    omega
  · cases h

/-- Reading an operand without quotes leaves no more text than there was. -/
theorem length_rest_readBare_le {opening : Nat} {c next : Cursor} {operand : Text}
    (h : readBare opening c = .ok (operand, next)) : next.rest.length ≤ c.rest.length := by
  simp only [readBare] at h
  split at h
  · cases h
  · rename_i rest hrest
    split at h
    · cases h
    · cases h
      have hle := c.length_rest_skip_le isBareChar
      rw [hrest, List.length_cons] at hle
      exact Nat.le_of_succ_le hle
  · cases h

/-- Reading an operand leaves no more text than there was. -/
theorem length_rest_readOperand_le {opening : Nat} {c next : Cursor} {operand : Text}
    (h : readOperand opening c = .ok (operand, next)) : next.rest.length ≤ c.rest.length := by
  simp only [readOperand] at h
  split at h
  · cases h
  · rename_i first rest hrest
    split at h
    · split at h
      · cases h
      · rename_i operand' behind hquoted
        obtain ⟨u, hclosing, -⟩ := Reading.map_eq_ok.1 h
        have h₁ := length_rest_readQuoted_le hquoted
        have h₂ := behind.length_rest_skip_le Text.isSpace
        have h₃ := length_rest_readClosing_le hclosing
        simp only [Cursor.skipSpace, hrest, List.length_cons] at h₁ h₂ h₃ ⊢
        omega
    · exact length_rest_readBare_le h

/-- Reading a bracketed clause leaves no more text than there was. -/
theorem AttributeToken.length_rest_read_le {opening : Nat} {c next : Cursor}
    {token : AttributeToken} (h : AttributeToken.read opening c = .ok (token, next)) :
    next.rest.length ≤ c.rest.length := by
  have h₁ := c.length_rest_skip_le Text.isSpace
  have h₂ := c.skipSpace.length_rest_skip_le isNameChar
  have h₃ := (c.skipSpace.skip isNameChar).length_rest_skip_le Text.isSpace
  simp only [AttributeToken.read] at h
  split at h
  · split at h <;> cases h
  · split at h
    · cases h
    · rename_i rest hrest
      cases h
      simp only [Cursor.skipSpace] at h₁ h₂ h₃ hrest ⊢
      rw [hrest, List.length_cons] at h₃
      omega
    · rename_i found rest _ hrest
      split at h
      · cases h
      · obtain ⟨operand, hoperand, -⟩ := Reading.map_eq_ok.1 h
        have h₄ := length_rest_readOperand_le hoperand
        have h₅ := ((c.skipSpace.skip isNameChar).skipSpace).length_rest_skip_le isOperatorChar
        have h₆ := (((c.skipSpace.skip isNameChar).skipSpace).skip
          isOperatorChar).length_rest_skip_le Text.isSpace
        simp only [Cursor.skipSpace] at h₁ h₂ h₃ h₄ h₅ h₆
        omega

namespace Token

/-- Reading a token leaves no more text than stood behind its first character. -/
theorem length_rest_read_le {afterOperand : Bool} {offset : Nat} {first : Char} {rest : Text}
    {token : Option Token} {next : Cursor}
    (h : read afterOperand offset first rest = .ok (token, next)) :
    next.rest.length ≤ rest.length := by
  have hskip := Cursor.length_rest_skip_le ⟨offset + 1, rest⟩
  simp only [read] at h
  split at h
  · split at h <;> cases h <;> exact hskip Text.isSpace
  · split at h
    · cases h
      exact Nat.le_refl _
    · split at h
      · cases h
        exact Nat.le_refl _
      · obtain ⟨n, hn, -⟩ := Reading.map_eq_ok.1 h
        exact length_rest_readName_le hn
      · obtain ⟨n, hn, -⟩ := Reading.map_eq_ok.1 h
        exact length_rest_readName_le hn
      · obtain ⟨clause, hclause, -⟩ := Reading.map_eq_ok.1 h
        exact AttributeToken.length_rest_read_le hclause
      · split at h
        · cases h
          exact hskip isNameChar
        · cases h

end Token

/-- The tokens of a clause up to its first lexical error, if it has one. -/
structure Lexed where
  /-- The tokens before the error. -/
  tokens : List Token
  /-- The error. -/
  failure : Option ClauseError := none
deriving DecidableEq, Repr

namespace Token

/-- Reads all tokens ahead. The flag tells whether the last token behind is an operand. -/
def readAll (afterOperand : Bool) (c : Cursor) : Lexed :=
  match _hrest : c.rest with
  | [] => ⟨[], none⟩
  | first :: rest =>
    match _hread : read afterOperand c.offset first rest with
    | .error e => ⟨[], some e⟩
    | .ok (none, next) => readAll afterOperand next
    | .ok (some token, next) =>
      let further := readAll (!token.isCombinator) next
      ⟨token :: further.tokens, further.failure⟩
termination_by c.rest.length
decreasing_by
  all_goals
    have hle := length_rest_read_le _hread
    simp only [_hrest, List.length_cons]
    omega

end Token

/-- The tokens of a clause up to its first lexical error. -/
def lex (clause : Text) : Lexed :=
  Token.readAll false (Cursor.start clause)

/-- All tokens of a clause, or its first lexical error. -/
def tokenize (clause : Text) : Except ClauseError (List Token) :=
  match lex clause with
  | ⟨tokens, none⟩ => .ok tokens
  | ⟨_, some e⟩ => .error e

end TreeSelect
