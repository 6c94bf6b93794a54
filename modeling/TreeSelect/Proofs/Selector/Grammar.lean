import Mathlib.Data.List.Basic
import TreeSelect.Selector.Token.Reader
/-!
# The grammar of a clause

Which texts spell which selector, said without a reader: each relation below holds between a part
of a selector and the texts that stand for it. Space may stand at both ends of a clause, on both
sides of a symbol and around the parts of a bracketed clause, and nowhere else; between two simple
selectors it is the descendant combinator.

A simple selector may be spelled in many ways, for its id may stand anywhere among its classes, its
operands may be quoted or not, and all space is free.

## Main definitions

* `Spacing`, `IsName`: runs of space and names.
* `OperandSpelling`, `AttributeToken.Spelling`, `AttributeClause.Spelling`: bracketed clauses.
* `TypeSpelling`, `MarksSpelling`, `AttributesSpelling`, `Simple.Spelling`: simple selectors.
* `Combinator.Symbol`, `Combinator.Spelling`, `ChainSpelling`, `Selector.Spelling`: chains.
-/

namespace TreeSelect

/-- A run of the five separating characters, maybe an empty one. -/
def Spacing (g : Text) : Prop :=
  ∀ c ∈ g, Text.isSpace c = true

/-- No space is spacing. -/
theorem spacing_nil : Spacing [] := by
  simp [Spacing]

/-- A name: some name characters. -/
def IsName (n : Text) : Prop :=
  n ≠ [] ∧ ∀ c ∈ n, isNameChar c = true

/-! ### Bracketed clauses -/

/-- The spellings of an operand, from behind the operator to the closing bracket.

Between quotes anything but the same quote may stand, and space may stand around the quotes.
Without quotes an operand has no bracket and no quote in it, does not start with space and does not
end in a blank; where it follows its operator at once it starts with a name character, for any
other character would belong to the operator. Blanks behind it are dropped. -/
inductive OperandSpelling : Text → Text → Prop
  | quoted {v g₁ g₂ : Text} {q : Char} (before : Spacing g₁) (quote : isQuote q = true)
      (inside : q ∉ v) (after : Spacing g₂) :
      OperandSpelling v (g₁ ++ q :: (v ++ q :: g₂))
  | bare {v g blanks : Text} (before : Spacing g) (nonempty : v ≠ [])
      (inside : ∀ c ∈ v, isBareChar c = true)
      (first : ∀ c ∈ v.head?, Text.isSpace c = false)
      (apart : g = [] → ∀ c ∈ v.head?, isNameChar c = true)
      (last : ∀ c ∈ v.getLast?, Text.isBlank c = false)
      (after : ∀ c ∈ blanks, Text.isBlank c = true) :
      OperandSpelling v (g ++ (v ++ blanks))

/-- The spellings of a bracketed clause: a name alone, or a name, an operator and an operand. -/
inductive AttributeToken.Spelling : AttributeToken → Text → Prop
  | present {name g₁ g₂ : Text} (before : Spacing g₁) (isName : IsName name)
      (after : Spacing g₂) :
      Spelling ⟨name, none⟩ ('[' :: (g₁ ++ (name ++ (g₂ ++ [']']))))
  | condition {name operator operand g₁ g₂ x : Text} (before : Spacing g₁)
      (isName : IsName name) (after : Spacing g₂) (nonempty : operator ≠ [])
      (isOperator : ∀ c ∈ operator, isOperatorChar c = true)
      (spelled : OperandSpelling operand x) :
      Spelling ⟨name, some (operator, operand)⟩
        ('[' :: (g₁ ++ (name ++ (g₂ ++ (operator ++ (x ++ [']']))))))

/-- The spellings of a bracketed clause by what it asks: a name alone asks that the attribute is
there, an operator with an operand asks for the test that the operator stands for. -/
inductive AttributeClause.Spelling : AttributeClause → Text → Prop
  | present {name w : Text} (spelled : AttributeToken.Spelling ⟨name, none⟩ w) :
      Spelling ⟨name, .present⟩ w
  | condition {name operator operand w : Text}
      (spelled : AttributeToken.Spelling ⟨name, some (operator, operand)⟩ w) :
      Spelling ⟨name, .ofOperator operator operand⟩ w

/-! ### Simple selectors -/

/-- The spellings of the constraint on the tag. -/
inductive TypeSpelling : Option TypeSelector → Text → Prop
  | absent : TypeSpelling none []
  | universal : TypeSpelling (some .universal) ['*']
  | named {c : Char} {n : Text} (start : isNameStart c = true)
      (further : ∀ x ∈ n, isNameChar x = true) : TypeSpelling (some (.named (c :: n))) (c :: n)

/-- The spellings of an id and classes: the classes in their order, the id anywhere among them. -/
inductive MarksSpelling : Option Text → List Text → Text → Prop
  | nil : MarksSpelling none [] []
  | id {n w : Text} {classes : List Text} (isName : IsName n)
      (further : MarksSpelling none classes w) : MarksSpelling (some n) classes ('#' :: (n ++ w))
  | className {n w : Text} {id : Option Text} {classes : List Text} (isName : IsName n)
      (further : MarksSpelling id classes w) : MarksSpelling id (n :: classes) ('.' :: (n ++ w))

/-- The spellings of attribute clauses, one bracketed clause for each. -/
inductive AttributesSpelling : List AttributeClause → Text → Prop
  | nil : AttributesSpelling [] []
  | cons {clause : AttributeClause} {w r : Text} {clauses : List AttributeClause}
      (spelled : clause.Spelling w) (further : AttributesSpelling clauses r) :
      AttributesSpelling (clause :: clauses) (w ++ r)

/-- The spellings of a simple selector, which are not empty. -/
def Simple.Spelling (s : Simple) (t : Text) : Prop :=
  t ≠ [] ∧ ∃ type marks attributes, t = type ++ (marks ++ attributes) ∧
    TypeSpelling s.tag type ∧ MarksSpelling s.id s.classes marks ∧
      AttributesSpelling s.attributes attributes

/-! ### Chains -/

/-- The symbols. The descendant combinator has none. -/
inductive Combinator.Symbol : Combinator → Char → Prop
  | child : Symbol child '>'
  | reverseChild : Symbol reverseChild '<'
  | nextSibling : Symbol nextSibling '+'
  | subsequentSibling : Symbol subsequentSibling '~'

/-- The spellings of a combinator: some space for the descendant combinator, the symbol with any
space around it for the others. -/
inductive Combinator.Spelling : Combinator → Text → Prop
  | descendant {g : Text} (nonempty : g ≠ []) (spacing : Spacing g) : Spelling descendant g
  | symbol {c : Combinator} {x : Char} {g₁ g₂ : Text} (isSymbol : c.Symbol x)
      (before : Spacing g₁) (after : Spacing g₂) : Spelling c (g₁ ++ x :: g₂)

/-- The spellings of what follows the head of a chain. -/
inductive ChainSpelling : List (Combinator × Simple) → Text → Prop
  | nil : ChainSpelling [] []
  | cons {c : Combinator} {s : Simple} {rest : List (Combinator × Simple)} {between w r : Text}
      (separated : c.Spelling between) (spelled : s.Spelling w)
      (further : ChainSpelling rest r) : ChainSpelling ((c, s) :: rest) (between ++ (w ++ r))

/-- The spellings of a selector. -/
def Selector.Spelling (s : Selector) (t : Text) : Prop :=
  ∃ before head rest after, t = before ++ (head ++ (rest ++ after)) ∧ Spacing before ∧
    s.head.Spelling head ∧ ChainSpelling s.rest rest ∧ Spacing after

end TreeSelect
