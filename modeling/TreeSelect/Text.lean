/-!
# Texts

A text is a list of code points. Offsets, cuts and comparisons in this library all count code
points, so a list is the form in which they are both run and reasoned about; the built-in string
type appears only where a text enters or leaves the program.

Two kinds of characters count as space. The five separating characters stand between words and
between the tokens of a clause. The blanks, which are all that Unicode calls white space, are
trimmed off the two ends of a clause and off the end of an unquoted operand.

## Main definitions

* `Text.isSpace`, `Text.words`: the five separating characters and the words between them.
* `Text.foldCase`: a text without the case of its ASCII letters.
* `Text.contains`: whether one text occurs in another.
* `Text.ofNat`: a number in decimal digits.
* `Text.isBlank`, `Text.trim`: blanks, and a text without those at its ends.

## Main statements

* `Text.contains_iff`: what it means that a text occurs in another.
* `Text.isBlank_of_isSpace`: every separating character is blank.
* `Text.trim_eq_nil_iff`: trimming leaves nothing exactly of a text that is blank throughout.
-/

namespace TreeSelect

/-- A text, one code point after the other. Texts are ordered by code points. -/
abbrev Text := List Char

namespace Text

/-- The five characters that separate words: space, tab, line feed, form feed, carriage return. -/
def isSpace (c : Char) : Bool :=
  c == ' ' || c == '\t' || c == '\n' || c == '\x0c' || c == '\r'

/-- The longest runs of a text that hold no separating character, in order. -/
def words (t : Text) : List Text :=
  (t.splitOnP isSpace).filter fun word => !word.isEmpty

/-- The text with its ASCII capitals made small; all other characters stay. -/
def foldCase (t : Text) : Text :=
  t.map Char.toLower

/-- Whether the second text occurs in the first as consecutive characters. -/
def contains : Text → Text → Bool
  | [], needle => needle.isEmpty
  | c :: rest, needle => needle.isPrefixOf (c :: rest) || contains rest needle

/-- A number in decimal digits. -/
def ofNat (n : Nat) : Text :=
  Nat.toDigits 10 n

/-- Folding case keeps the number of characters. -/
@[simp] theorem length_foldCase (t : Text) : t.foldCase.length = t.length := by
  simp [foldCase]

/-- Folding case goes through a join of texts. -/
@[simp] theorem foldCase_append (s t : Text) : (s ++ t).foldCase = s.foldCase ++ t.foldCase := by
  simp [foldCase]

/-- A text occurs in another exactly when it stands there between two further texts. -/
theorem contains_iff {t needle : Text} : t.contains needle = true ↔ needle <:+: t := by
  induction t with
  | nil => simp [contains]
  | cons c rest ih =>
    simp only [contains, Bool.or_eq_true, List.isPrefixOf_iff_prefix, ih, List.infix_cons_iff]

/-! ### Blanks -/

/-- The characters with the Unicode property White_Space. -/
def isBlank (c : Char) : Bool :=
  let n := c.toNat
  (0x09 ≤ n && n ≤ 0x0D) || n == 0x20 || n == 0x85 || n == 0xA0 || n == 0x1680 ||
    (0x2000 ≤ n && n ≤ 0x200A) || n == 0x2028 || n == 0x2029 || n == 0x202F || n == 0x205F ||
    n == 0x3000

/-- The text without the blanks at its end. -/
def trimEnd (t : Text) : Text :=
  (t.reverse.dropWhile isBlank).reverse

/-- The text without the blanks at its two ends. -/
def trim (t : Text) : Text :=
  trimEnd (t.dropWhile isBlank)

/-- Every separating character is blank. -/
theorem isBlank_of_isSpace {c : Char} (h : isSpace c = true) : isBlank c = true := by
  simp only [isSpace, Bool.or_eq_true, beq_iff_eq] at h
  rcases h with (((rfl | rfl) | rfl) | rfl) | rfl <;> decide

/-- Dropping from the front leaves nothing exactly when every element is dropped. -/
theorem dropWhile_eq_nil_iff_all {p : Char → Bool} {t : Text} :
    t.dropWhile p = [] ↔ ∀ c ∈ t, p c = true := by
  induction t with
  | nil => simp
  | cons c rest ih => by_cases h : p c = true <;> simp [h, ih]

/-- Trimming the end leaves nothing exactly of a text that is blank throughout. -/
theorem trimEnd_eq_nil_iff {t : Text} : t.trimEnd = [] ↔ ∀ c ∈ t, isBlank c = true := by
  simp only [trimEnd, List.reverse_eq_nil_iff, dropWhile_eq_nil_iff_all, List.mem_reverse]

/-- Trimming leaves nothing exactly of a text that is blank throughout. -/
theorem trim_eq_nil_iff {t : Text} : t.trim = [] ↔ ∀ c ∈ t, isBlank c = true := by
  rw [trim, trimEnd_eq_nil_iff]
  constructor
  · intro h c hc
    rw [← List.takeWhile_append_dropWhile (p := isBlank) (l := t)] at hc
    rcases List.mem_append.1 hc with hc | hc
    · exact List.all_eq_true.1 (List.all_takeWhile (p := isBlank) (l := t)) c hc
    · exact h c hc
  · intro h c hc
    exact h c ((List.dropWhile_suffix isBlank).subset hc)

end Text

end TreeSelect
