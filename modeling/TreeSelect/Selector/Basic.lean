import TreeSelect.Json.Basic
/-!
# Selectors

A selector describes elements of a labelled tree. A *simple selector* asks one element for a tag,
an id, classes and attributes; a *selector* is a chain of simple selectors joined by combinators;
a *selector list* is an ordered union of selectors.

Every selector has one canonical text: the type first, then the id, the classes and the attribute
clauses; one space on each side of a combinator; a comma and a space between alternatives. An
operand is put into double quotes, or into single quotes if it holds a double quote itself. So an
operand with both kinds of quote has no text that reads back.

The structure of a selector can be written as a JSON value too: a case of a union is the case's
word, or an object with that word as its only name; a record is an object with all of its fields.

## Main definitions

* `TypeSelector`, `AttributeTest`, `AttributeClause`, `Simple`: what is asked of one element.
* `Combinator`: how two neighbours of a chain are related.
* `Selector`, `SelectorList`: the chain and the union.
* `AttributeTest.ofOperator`, `AttributeTest.holds`: reading an operator and testing a value.
* `Simple.form`: which of three shapes a simple selector has.
* `Simple.text`, `Selector.text`, `SelectorList.text`: canonical text at the three levels.
* `Simple.toJson`, `Selector.toJson`, `SelectorList.toJson`: structure as JSON at three levels.
-/

namespace TreeSelect

/-- What a simple selector asks of an element's tag. -/
inductive TypeSelector where
  /-- `*`, which every tag satisfies. -/
  | universal
  /-- A tag name, compared without regard to the case of ASCII letters. -/
  | named (name : Text)
deriving DecidableEq, Repr

/-- Whether a tag satisfies a type selector. -/
def TypeSelector.accepts : TypeSelector → Text → Bool
  | universal, _ => true
  | named name, tag => name.foldCase == tag.foldCase

/-- The test that an attribute clause applies to the value of its attribute. -/
inductive AttributeTest where
  /-- The attribute is there, whatever its value. -/
  | present
  /-- The value is the operand. -/
  | equals (operand : Text)
  /-- The value starts with the operand. -/
  | startsWith (operand : Text)
  /-- The value ends with the operand. -/
  | endsWith (operand : Text)
  /-- The operand occurs anywhere in the value; a second spelling of `contains`. -/
  | includes (operand : Text)
  /-- The value is the operand, or starts with the operand and a hyphen. -/
  | dashMatch (operand : Text)
  /-- The operand occurs anywhere in the value. -/
  | contains (operand : Text)
  /-- An operator without a meaning here. The clause is read, and no value passes. -/
  | unsupported (operator operand : Text)
deriving DecidableEq, Repr

namespace AttributeTest

/-- The test that an operator and its operand spell. -/
def ofOperator (operator operand : Text) : AttributeTest :=
  match operator with
  | ['='] => equals operand
  | ['^', '='] => startsWith operand
  | ['$', '='] => endsWith operand
  | ['~', '='] => includes operand
  | ['|', '='] => dashMatch operand
  | ['*', '='] => contains operand
  | _ => unsupported operator operand

/-- The operator and operand of a test; a test for mere presence has none. -/
def operator? : AttributeTest → Option (Text × Text)
  | present => none
  | equals operand => some (['='], operand)
  | startsWith operand => some (['^', '='], operand)
  | endsWith operand => some (['$', '='], operand)
  | includes operand => some (['~', '='], operand)
  | dashMatch operand => some (['|', '='], operand)
  | contains operand => some (['*', '='], operand)
  | unsupported operator operand => some (operator, operand)

/-- Whether the value of an attribute, if it is there at all, passes a test. -/
def holds : AttributeTest → Option Text → Bool
  | _, none => false
  | present, some _ => true
  | equals operand, some value => value == operand
  | startsWith operand, some value => operand.isPrefixOf value
  | endsWith operand, some value => operand.isSuffixOf value
  | includes operand, some value => value.contains operand
  | dashMatch operand, some value => value == operand || (operand ++ ['-']).isPrefixOf value
  | contains operand, some value => value.contains operand
  | unsupported _ _, some _ => false

/-- Reading an operator and writing it again give the same operator and operand. -/
@[simp] theorem operator?_ofOperator (operator operand : Text) :
    (ofOperator operator operand).operator? = some (operator, operand) := by
  unfold ofOperator
  split <;> rfl

end AttributeTest

/-- One bracketed clause: the name of an attribute and the test on its value. -/
structure AttributeClause where
  /-- The attribute's name, compared exactly. -/
  name : Text
  /-- The test on its value. -/
  test : AttributeTest
deriving DecidableEq, Repr

/-- A predicate on one element: every constraint that is there must hold. -/
structure Simple where
  /-- The constraint on the tag. -/
  tag : Option TypeSelector := none
  /-- The constraint on the id. -/
  id : Option Text := none
  /-- The classes that the element must carry. -/
  classes : List Text := []
  /-- The clauses that the element's attributes must pass. -/
  attributes : List AttributeClause := []
deriving DecidableEq, Repr

/-- The shape of a simple selector. -/
inductive Form where
  /-- At most one of a type, an id and a class. -/
  | bare
  /-- Several of a type, an id and classes. -/
  | compound
  /-- Anything with a bracketed clause. -/
  | bracketed
deriving DecidableEq, Repr

namespace Simple

/-- Whether a simple selector asks nothing. -/
def isEmpty (s : Simple) : Bool :=
  s.tag.isNone && s.id.isNone && s.classes.isEmpty && s.attributes.isEmpty

/-- The shape of a simple selector. -/
def form (s : Simple) : Form :=
  if !s.attributes.isEmpty then .bracketed
  else if s.tag.toList.length + s.id.toList.length + s.classes.length ≤ 1 then .bare
  else .compound

/-- Whether a tag satisfies the constraint on the tag, if there is one. -/
def acceptsTag (s : Simple) (tag : Text) : Bool :=
  s.tag.all (·.accepts tag)

end Simple

/-- How an element of a chain stands to the element on its left. -/
inductive Combinator where
  /-- Below the left element, at any depth. -/
  | descendant
  /-- A child of the left element. -/
  | child
  /-- A child of the left element, which is the one that is reported. -/
  | reverseChild
  /-- The first element after the left one among its siblings. -/
  | nextSibling
  /-- After the left element, under the same parent. -/
  | subsequentSibling
deriving DecidableEq, Repr

namespace Combinator

/-- The character that stands for a combinator in canonical text. -/
def symbol : Combinator → Char
  | descendant => ' '
  | child => '>'
  | reverseChild => '<'
  | nextSibling => '+'
  | subsequentSibling => '~'

/-- The combinator that a character spells. Space is no such character: whether it stands for a
combinator depends on its neighbours. -/
def ofSymbol? : Char → Option Combinator
  | '>' => some child
  | '<' => some reverseChild
  | '+' => some nextSibling
  | '~' => some subsequentSibling
  | _ => none

/-- The combinator whose symbol is the whole text. -/
def ofText? : Text → Option Combinator
  | [' '] => some descendant
  | [c] => ofSymbol? c
  | _ => none

/-- A combinator is found again from its symbol. -/
@[simp] theorem ofText?_symbol (c : Combinator) : ofText? [c.symbol] = some c := by
  cases c <;> rfl

end Combinator

/-- A chain of simple selectors, read from left to right. -/
structure Selector where
  /-- The leftmost simple selector. -/
  head : Simple
  /-- Each further simple selector with the combinator on its left. -/
  rest : List (Combinator × Simple) := []
deriving DecidableEq, Repr

/-- Alternatives in the order in which they are answered. -/
abbrev SelectorList := List Selector

namespace Selector

/-- The simple selectors of a chain from left to right. -/
def simples (s : Selector) : List Simple :=
  s.head :: s.rest.map Prod.snd

/-- The combinators of a chain from left to right. -/
def combinators (s : Selector) : List Combinator :=
  s.rest.map Prod.fst

/-- The rightmost simple selector. -/
def subject (s : Selector) : Simple :=
  (s.rest.getLast?.map Prod.snd).getD s.head

/-- The number of simple selectors. -/
def length (s : Selector) : Nat :=
  s.rest.length + 1

/-- Whether a chain has no combinator. -/
def isSimple (s : Selector) : Bool :=
  s.rest.isEmpty

/-- A chain has as many simple selectors as its length says. -/
@[simp] theorem length_simples (s : Selector) : s.simples.length = s.length := by
  simp [simples, length]

/-- A chain has one combinator fewer than simple selectors. -/
theorem length_combinators (s : Selector) : s.combinators.length + 1 = s.length := by
  simp [combinators, length]

end Selector

/-! ### Canonical text -/

/-- The canonical text of a type selector. -/
def TypeSelector.text : TypeSelector → Text
  | universal => ['*']
  | named name => name

/-- The quote that encloses an operand in canonical text. -/
def AttributeClause.quoteFor (operand : Text) : Char :=
  if '"' ∈ operand then '\x27' else '"'

/-- The canonical text of an attribute clause. -/
def AttributeClause.text (clause : AttributeClause) : Text :=
  match clause.test.operator? with
  | none => '[' :: clause.name ++ [']']
  | some (operator, operand) =>
    let quote := quoteFor operand
    '[' :: clause.name ++ operator ++ quote :: operand ++ [quote, ']']

/-- The canonical text of a simple selector; one that asks nothing is written `*`. -/
def Simple.text (s : Simple) : Text :=
  if s.isEmpty then ['*']
  else
    (s.tag.map TypeSelector.text).getD [] ++ (s.id.map ('#' :: ·)).getD [] ++
      s.classes.flatMap ('.' :: ·) ++ s.attributes.flatMap AttributeClause.text

/-- The canonical text of a combinator with the spaces on its two sides. -/
def Combinator.spaced : Combinator → Text
  | descendant => [' ']
  | c => [' ', c.symbol, ' ']

/-- The canonical text of a chain. -/
def Selector.text (s : Selector) : Text :=
  s.head.text ++ s.rest.flatMap fun (c, simple) => c.spaced ++ simple.text

/-- The canonical text of a selector list. -/
def SelectorList.text (list : SelectorList) : Text :=
  List.intercalate [',', ' '] (list.map Selector.text)

/-- The word for a form. -/
def Form.text : Form → Text
  | bare => "bare".toList
  | compound => "compound".toList
  | bracketed => "attribute".toList

/-! ### Structure as JSON -/

/-- A type selector as JSON. -/
def TypeSelector.toJson : TypeSelector → Json
  | universal => .word "Universal"
  | named name => .tagged "Name" (.string name)

/-- An attribute test as JSON. -/
def AttributeTest.toJson : AttributeTest → Json
  | present => .word "Exists"
  | equals operand => .tagged "Equals" (.string operand)
  | startsWith operand => .tagged "Prefix" (.string operand)
  | endsWith operand => .tagged "Suffix" (.string operand)
  | includes operand => .tagged "Includes" (.string operand)
  | dashMatch operand => .tagged "DashMatch" (.string operand)
  | contains operand => .tagged "Substring" (.string operand)
  | unsupported operator operand =>
    .tagged "Unsupported"
      (.object [("operator".toList, .string operator), ("value".toList, .string operand)])

/-- An attribute clause as JSON. -/
def AttributeClause.toJson (clause : AttributeClause) : Json :=
  .object [("name".toList, .string clause.name), ("test".toList, clause.test.toJson)]

/-- A simple selector as JSON. -/
def Simple.toJson (s : Simple) : Json :=
  .object
    [("tag".toList, (s.tag.map TypeSelector.toJson).getD .null),
      ("id".toList, (s.id.map Json.string).getD .null),
      ("classes".toList, .array (s.classes.map .string)),
      ("attributes".toList, .array (s.attributes.map AttributeClause.toJson))]

/-- The word for a combinator. -/
def Combinator.word : Combinator → String
  | descendant => "Descendant"
  | child => "Child"
  | reverseChild => "ReverseChild"
  | nextSibling => "NextSibling"
  | subsequentSibling => "SubsequentSibling"

/-- A chain as JSON. -/
def Selector.toJson (s : Selector) : Json :=
  .object
    [("head".toList, s.head.toJson),
      ("rest".toList, .array (s.rest.map fun (c, simple) =>
        .array [.word c.word, simple.toJson]))]

/-- A selector list as JSON. -/
def SelectorList.toJson (list : SelectorList) : Json :=
  .array (list.map Selector.toJson)

end TreeSelect
