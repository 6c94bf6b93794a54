import TreeSelect.Json.Quoted
/-!
# JSON values

A JSON value as it is written: the members of an object keep their order and may repeat a name,
and a number keeps its digits, since nothing here computes with it.

Writing stands for the writer of a library from outside, in its two documented forms. The compact
form is on one line without space. The pretty form has one item or member to a line, two spaces more
for each level, a space behind a colon, and nothing within the brackets of an empty array or
object.

## Main definitions

* `Json`: the values.
* `Json.tagged`, `Json.word`: a value under a word, and a word alone.
* `Json.ofNat`, `Json.ofInt`, `Json.int?`: integers as numbers.
* `Json.string?`: the text of a string.
* `Json.field?`: the last member of a given name.
* `Json.compact`, `Json.pretty`: a value on one line, and on several lines.
-/

namespace TreeSelect

/-- A JSON value. -/
inductive Json where
  /-- `null`. -/
  | null
  /-- `true` or `false`. -/
  | bool (value : Bool)
  /-- A number, as its digits are written. -/
  | number (literal : Text)
  /-- A string. -/
  | string (value : Text)
  /-- An array. -/
  | array (items : List Json)
  /-- An object. -/
  | object (members : List (Text × Json))
deriving Repr, Inhabited

namespace Json

/-- An object with one member. -/
def tagged (word : String) (value : Json) : Json :=
  object [(word.toList, value)]

/-- A word as a string. -/
def word (word : String) : Json :=
  string word.toList

/-- A natural number. -/
def ofNat (n : Nat) : Json :=
  number (Text.ofNat n)

/-- An integer. -/
def ofInt : Int → Json
  | .ofNat n => ofNat n
  | .negSucc n => number ('-' :: Text.ofNat (n + 1))

/-- The integer that a number without fraction and exponent spells. -/
def int? : Json → Option Int
  | number literal => (String.ofList literal).toInt?
  | _ => none

/-- The text that a string holds. -/
def string? : Json → Option Text
  | string value => some value
  | _ => none

/-- The value of the last member of an object with a given name. -/
def field? (name : Text) : Json → Option Json
  | object members => (members.reverse.find? fun member => member.1 == name).map Prod.snd
  | _ => none

/-! ### Writing -/

mutual

/-- A value on one line. -/
def compact : Json → Text
  | null => "null".toList
  | bool true => "true".toList
  | bool false => "false".toList
  | number literal => literal
  | string value => Quoted.encode value
  | array items => '[' :: compactItems items
  | object members => '\x7b' :: compactMembers members

/-- Items with commas between them and a bracket behind them. -/
def compactItems : List Json → Text
  | [] => [']']
  | [last] => compact last ++ [']']
  | item :: next :: rest => compact item ++ ',' :: compactItems (next :: rest)

/-- Members with commas between them and a brace behind them. -/
def compactMembers : List (Text × Json) → Text
  | [] => ['\x7d']
  | [(name, last)] => Quoted.encode name ++ ':' :: compact last ++ ['\x7d']
  | (name, value) :: next :: rest =>
    Quoted.encode name ++ ':' :: compact value ++ ',' :: compactMembers (next :: rest)

end

/-- A line break and the indentation of a level. -/
def newline (level : Nat) : Text :=
  '\n' :: List.replicate (2 * level) ' '

mutual

/-- A value with one item to a line, at a given level. -/
def pretty (level : Nat) : Json → Text
  | array [] => ['[', ']']
  | array (item :: rest) =>
    '[' :: newline (level + 1) ++ pretty (level + 1) item ++ prettyItems level rest
  | object [] => ['\x7b', '\x7d']
  | object ((name, value) :: rest) =>
    '\x7b' :: newline (level + 1) ++ Quoted.encode name ++ ':' :: ' ' ::
      pretty (level + 1) value ++ prettyMembers level rest
  | value => compact value

/-- Further items, one to a line, and the bracket behind them. -/
def prettyItems (level : Nat) : List Json → Text
  | [] => newline level ++ [']']
  | item :: rest =>
    ',' :: newline (level + 1) ++ pretty (level + 1) item ++ prettyItems level rest

/-- Further members, one to a line, and the brace behind them. -/
def prettyMembers (level : Nat) : List (Text × Json) → Text
  | [] => newline level ++ ['\x7d']
  | (name, value) :: rest =>
    ',' :: newline (level + 1) ++ Quoted.encode name ++ ':' :: ' ' ::
      pretty (level + 1) value ++ prettyMembers level rest

end

end Json

end TreeSelect
