import TreeSelect.Selector.Basic
/-!
# Tokens, errors and places

The lexical units of a clause. A whole bracketed clause is one token; a run of space between two
operands is one token too, the descendant combinator.

A clause is refused for a lexical reason, which has a place, or for a reason of shape, which has
none. Places count code points from the start of the clause.

Tokens are read with a cursor, which is a place in a clause: how many characters lie behind it, and
the text that is still ahead. Reading moves a cursor forward, and the sum of both parts never
changes.

## Main definitions

* `isNameStart`, `isNameChar`, `isOperatorChar`: the classes of characters that tokens are made of.
* `Token`, `AttributeToken`: the units.
* `Token.text`: a unit as it is quoted in an error.
* `ClauseError`, `ClauseError.message`: the reasons, and a reason in words.
* `Rejected`: a clause together with its reason.
* `Cursor`: a place in a clause.

## Main statements

* `Cursor.run_append_rest_skip`: skipping loses nothing.
* `Cursor.length_rest_skip_le`: what is ahead only gets shorter.
* `Cursor.reach_skip`: skipping keeps the length of the clause.
-/

namespace TreeSelect

/-! ### Tokens -/

/-- Whether a character may start a name: an ASCII letter, an underscore or anything beyond
ASCII. -/
def isNameStart (c : Char) : Bool :=
  c.isAlpha || c == '_' || 0x80 ≤ c.toNat

/-- Whether a character may stand in a name: one that may start it, a digit or a hyphen. -/
def isNameChar (c : Char) : Bool :=
  isNameStart c || c.isDigit || c == '-'

/-- Whether a character opens and closes a quoted operand. -/
def isQuote (c : Char) : Bool :=
  c == '"' || c == '\x27'

/-- Whether a character may stand in the operator of an attribute clause: anything but space,
name characters, quotes and the closing bracket. -/
def isOperatorChar (c : Char) : Bool :=
  !Text.isSpace c && !isNameChar c && !isQuote c && c != ']'

/-- A bracketed clause as it is read, before its operator is given a meaning. -/
structure AttributeToken where
  /-- The attribute's name. -/
  name : Text
  /-- The operator and the operand, unless the clause only names the attribute. -/
  condition : Option (Text × Text) := none
deriving DecidableEq, Repr

/-- A lexical unit of a clause. -/
inductive Token where
  /-- A name that stands for itself. -/
  | name (name : Text)
  /-- `*`. -/
  | universal
  /-- `#` and a name. -/
  | id (name : Text)
  /-- `.` and a name. -/
  | className (name : Text)
  /-- A bracketed clause. -/
  | bracketed (clause : AttributeToken)
  /-- A symbol between two operands, or the space between them. -/
  | combinator (combinator : Combinator)
deriving DecidableEq, Repr

/-- A bracketed clause as it is quoted in an error: without space and without quotes. -/
def AttributeToken.text (clause : AttributeToken) : Text :=
  match clause.condition with
  | none => '[' :: clause.name ++ [']']
  | some (operator, operand) => '[' :: clause.name ++ operator ++ operand ++ [']']

/-- The clause that a bracketed token stands for. -/
def AttributeToken.clause (token : AttributeToken) : AttributeClause where
  name := token.name
  test := match token.condition with
    | none => .present
    | some (operator, operand) => .ofOperator operator operand

namespace Token

/-- Whether a token is a combinator. -/
def isCombinator : Token → Bool
  | combinator _ => true
  | _ => false

/-- A token as it is quoted in an error. -/
def text : Token → Text
  | name n => n
  | universal => ['*']
  | id n => '#' :: n
  | className n => '.' :: n
  | bracketed clause => clause.text
  | combinator c => [c.symbol]

end Token

/-- A character that may start a name may also stand in it. -/
theorem isNameChar_of_isNameStart {c : Char} (h : isNameStart c = true) : isNameChar c = true := by
  simp [isNameChar, h]

/-- Space stands in no name. -/
theorem isNameChar_eq_false_of_isSpace {c : Char} (h : Text.isSpace c = true) :
    isNameChar c = false := by
  simp only [Text.isSpace, Bool.or_eq_true, beq_iff_eq] at h
  rcases h with (((rfl | rfl) | rfl) | rfl) | rfl <;> decide

/-! ### Why a clause is refused -/

/-- Why a clause is not read as a selector. -/
inductive ClauseError where
  /-- A character that may not stand where it stands. -/
  | unexpectedCharacter (found : Char) (offset : Nat)
  /-- A sigil or a bracket without a name behind it. -/
  | expectedName (sigil : Char) (offset : Nat)
  /-- A bracket that is never closed; the offset is the bracket's. -/
  | unclosedAttribute (offset : Nat)
  /-- A quote that is never closed; the offset is the quote's. -/
  | unclosedQuote (offset : Nat)
  /-- A combinator with nothing on one of its sides. -/
  | missingOperand (combinator : Combinator)
  /-- A second id in one simple selector. -/
  | duplicateId
  /-- A token that follows an attribute clause within a simple selector. -/
  | attributeNotLast (token : Text)
  /-- A type selector that is not the first token of its simple selector. -/
  | misplacedType (name : Text)
  /-- A clause without a token. -/
  | emptyClause
deriving DecidableEq, Repr

/-- The reason in words. -/
def ClauseError.message : ClauseError → Text
  | unexpectedCharacter found offset =>
    "unexpected character '".toList ++ found :: "' at offset ".toList ++ Text.ofNat offset
  | expectedName sigil offset =>
    "expected an identifier after '".toList ++ sigil :: "' at offset ".toList ++ Text.ofNat offset
  | unclosedAttribute offset =>
    "attribute clause opened at offset ".toList ++ Text.ofNat offset ++
      " is never closed".toList
  | unclosedQuote offset =>
    "quoted value starting at offset ".toList ++ Text.ofNat offset ++ " is never closed".toList
  | missingOperand combinator =>
    "combinator '".toList ++ combinator.symbol :: "' is missing an operand".toList
  | duplicateId => "a simple selector may carry only one id".toList
  | attributeNotLast token => '\x27' :: token ++ "' may not follow an attribute clause".toList
  | misplacedType name =>
    "type selector '".toList ++ name ++ "' must come first in a simple selector".toList
  | emptyClause => "empty selector".toList

/-- A clause that was not read, and why. -/
structure Rejected where
  /-- The clause, trimmed. -/
  clause : Text
  /-- Why it was not read. -/
  error : ClauseError
deriving DecidableEq, Repr

/-- The report on a rejected clause. -/
def Rejected.message (r : Rejected) : Text :=
  "invalid selector '".toList ++ r.clause ++ "': ".toList ++ r.error.message

/-! ### Places in a clause -/

/-- A place in a clause. -/
structure Cursor where
  /-- The number of characters behind. -/
  offset : Nat
  /-- The text ahead. -/
  rest : Text
deriving DecidableEq, Repr

namespace Cursor

/-- The place before the first character of a clause. -/
def start (clause : Text) : Cursor := ⟨0, clause⟩

/-- The length of the whole clause, seen from a place in it. -/
def reach (c : Cursor) : Nat := c.offset + c.rest.length

/-- The characters ahead up to the first that fails `p`. -/
def run (c : Cursor) (p : Char → Bool) : Text := c.rest.takeWhile p

/-- The place behind all leading characters that pass `p`. -/
def skip (c : Cursor) (p : Char → Bool) : Cursor :=
  ⟨c.offset + (c.run p).length, c.rest.dropWhile p⟩

/-- The place behind the space ahead. -/
def skipSpace (c : Cursor) : Cursor := c.skip Text.isSpace

/-- A run and the text behind it make up the text ahead. -/
theorem run_append_rest_skip (c : Cursor) (p : Char → Bool) :
    c.run p ++ (c.skip p).rest = c.rest :=
  List.takeWhile_append_dropWhile

/-- Skipping keeps the length of the clause. -/
@[simp] theorem reach_skip (c : Cursor) (p : Char → Bool) : (c.skip p).reach = c.reach := by
  have h := congrArg List.length (c.run_append_rest_skip p)
  rw [List.length_append] at h
  simp only [reach, skip] at h ⊢
  omega

/-- Skipping never makes the text ahead longer. -/
theorem length_rest_skip_le (c : Cursor) (p : Char → Bool) :
    (c.skip p).rest.length ≤ c.rest.length :=
  (List.dropWhile_suffix p).length_le

/-- Every character of a run passes the test. -/
theorem all_run (c : Cursor) (p : Char → Bool) : ∀ x ∈ c.run p, p x = true :=
  fun x hx => List.all_eq_true.1 (List.all_takeWhile (p := p) (l := c.rest)) x hx

end Cursor

end TreeSelect
