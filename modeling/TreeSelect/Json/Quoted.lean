import TreeSelect.Text
/-!
# Quoted strings of JSON

The program neither reads nor writes JSON itself: it hands that to a library from outside, for
which the functions here and in the other modules on JSON stand. They follow the documented
behaviour of that library.

Of strings that is the following. Writing escapes the quote, the backslash and the characters below
space, and nothing else; five of these characters have a letter, the others are written by their
number with small digits. Reading accepts every escape of the format, with digits of either case; a
character beyond the basic plane may be spelled by two units, neither of which may stand alone. A
character below space may not stand in a string as it is.

## Main definitions

* `Json.Fault`: the two ways in which a text fails to be JSON.
* `Json.Quoted.encode`, `Json.Quoted.decode`: writing and reading.

## Main statements

* `Json.Quoted.decode_encode`: what was written is read back, whatever follows.
-/

namespace TreeSelect.Json

/-- How a text fails to be JSON. -/
inductive Fault where
  /-- The text ends inside a value, or before one. -/
  | endOfText
  /-- Something stands where it may not. -/
  | malformed
deriving DecidableEq, Repr

/-- Reads characters that are given in advance. -/
def expect : Text → Text → Except Fault Text
  | [], rest => .ok rest
  | _ :: _, [] => .error .endOfText
  | e :: expected, c :: rest => if c = e then expect expected rest else .error .malformed

namespace Quoted

/-- A digit of the numbers to base sixteen, in lower case. -/
def hexDigit (n : Nat) : Char :=
  if n < 10 then Char.ofNat (48 + n) else Char.ofNat (87 + n)

/-- The value of a digit of the numbers to base sixteen. -/
def hexValue? (c : Char) : Option Nat :=
  if c.isDigit then some (c.toNat - 48)
  else if 'a' ≤ c ∧ c ≤ 'f' then some (c.toNat - 87)
  else if 'A' ≤ c ∧ c ≤ 'F' then some (c.toNat - 55)
  else none

/-- A character as it is written within quotes. -/
def escape (c : Char) : Text :=
  if c = '"' then ['\\', '"']
  else if c = '\\' then ['\\', '\\']
  else if c = '\x08' then ['\\', 'b']
  else if c = '\x0c' then ['\\', 'f']
  else if c = '\n' then ['\\', 'n']
  else if c = '\r' then ['\\', 'r']
  else if c = '\t' then ['\\', 't']
  else if c.toNat < 0x20 then
    ['\\', 'u', '0', '0', hexDigit (c.toNat / 16), hexDigit (c.toNat % 16)]
  else [c]

/-- A text within quotes. -/
def encode (t : Text) : Text :=
  '"' :: (t.flatMap escape ++ ['"'])

/-- Reads a unit of four digits to base sixteen. Fewer than four bytes ahead count as the end of
the text, whatever they are. -/
def readUnit (t : Text) : Except Fault (Nat × Text) :=
  match t with
  | a :: b :: c :: d :: rest =>
    match hexValue? a, hexValue? b, hexValue? c, hexValue? d with
    | some a, some b, some c, some d => .ok (((a * 16 + b) * 16 + c) * 16 + d, rest)
    | _, _, _, _ => .error .malformed
  | short =>
    if short.foldl (fun bytes c => bytes + c.utf8Size) 0 < 4 then .error .endOfText
    else .error .malformed

/-- Whether a unit is the first of a pair that spells one character. -/
def isLeading (unit : Nat) : Bool := 0xD800 ≤ unit && unit ≤ 0xDBFF

/-- Whether a unit is the second of a pair that spells one character. -/
def isTrailing (unit : Nat) : Bool := 0xDC00 ≤ unit && unit ≤ 0xDFFF

/-- Reads the character spelled by one unit or by a pair of units, from behind the first `\u`. -/
def readSpelled (t : Text) : Except Fault (Char × Text) :=
  match readUnit t with
  | .error e => .error e
  | .ok (unit, rest) =>
    if isTrailing unit then .error .malformed
    else if isLeading unit then
      match expect ['\\', 'u'] rest with
      | .error e => .error e
      | .ok rest =>
        match readUnit rest with
        | .error e => .error e
        | .ok (second, rest) =>
          if isTrailing second then
            .ok (Char.ofNat (0x10000 + (unit - 0xD800) * 0x400 + (second - 0xDC00)), rest)
          else .error .malformed
    else .ok (Char.ofNat unit, rest)

/-- The character that a letter behind a backslash stands for. -/
def escaped? (letter : Char) : Option Char :=
  if letter = '"' ∨ letter = '\\' ∨ letter = '/' then some letter
  else if letter = 'b' then some '\x08'
  else if letter = 'f' then some '\x0c'
  else if letter = 'n' then some '\n'
  else if letter = 'r' then some '\r'
  else if letter = 't' then some '\t'
  else none

/-- Reads an escaped character from behind the backslash. -/
def readEscape : Text → Except Fault (Char × Text)
  | [] => .error .endOfText
  | letter :: rest =>
    if letter = 'u' then readSpelled rest
    else
      match escaped? letter with
      | some c => .ok (c, rest)
      | none => .error .malformed

/-- Reading given characters leaves no more text than there was. -/
theorem length_expect_le {expected t rest : Text} (h : expect expected t = .ok rest) :
    rest.length ≤ t.length := by
  induction expected generalizing t with
  | nil =>
    cases h
    exact Nat.le_refl _
  | cons e expected ih =>
    cases t with
    | nil => cases h
    | cons c t =>
      simp only [expect] at h
      split at h
      · exact Nat.le_succ_of_le (ih h)
      · cases h

/-- Reading a unit leaves less text than there was. -/
theorem length_readUnit_lt {t rest : Text} {unit : Nat} (h : readUnit t = .ok (unit, rest)) :
    rest.length < t.length := by
  simp only [readUnit] at h
  split at h
  · split at h
    · cases h
      simp only [List.length_cons]
      omega
    · cases h
  · split at h <;> cases h

/-- Reading a spelled character leaves less text than there was. -/
theorem length_readSpelled_lt {t rest : Text} {c : Char} (h : readSpelled t = .ok (c, rest)) :
    rest.length < t.length := by
  simp only [readSpelled] at h
  split at h
  · cases h
  · rename_i unit first hfirst
    have h₁ := length_readUnit_lt hfirst
    split at h
    · cases h
    · split at h
      · split at h
        · cases h
        · rename_i second hsecond
          have h₂ := length_expect_le hsecond
          split at h
          · cases h
          · rename_i v third hthird
            have h₃ := length_readUnit_lt hthird
            split at h
            · simp only [Except.ok.injEq, Prod.mk.injEq] at h
              obtain ⟨-, rfl⟩ := h
              omega
            · cases h
      · simp only [Except.ok.injEq, Prod.mk.injEq] at h
        obtain ⟨-, rfl⟩ := h
        exact h₁

/-- Reading an escaped character leaves less text than there was. -/
theorem length_readEscape_lt {t rest : Text} {c : Char} (h : readEscape t = .ok (c, rest)) :
    rest.length < t.length := by
  cases t with
  | nil => cases h
  | cons letter t =>
    simp only [readEscape] at h
    split at h
    · exact Nat.lt_succ_of_lt (length_readSpelled_lt h)
    · split at h
      · cases h
        exact Nat.lt_succ_self _
      · cases h

/-- Reads a string from behind its opening quote; `taken` holds the characters read so far, the
last one first. Characters below space must be escaped. -/
def decodeFrom (taken : Text) : Text → Except Fault (Text × Text)
  | [] => .error .endOfText
  | c :: rest =>
    if c = '"' then .ok (taken.reverse, rest)
    else if c = '\\' then
      match _hescape : readEscape rest with
      | .error e => .error e
      | .ok (escaped, behind) => decodeFrom (escaped :: taken) behind
    else if c.toNat < 0x20 then .error .malformed
    else decodeFrom (c :: taken) rest
termination_by t => t.length
decreasing_by
  · have := length_readEscape_lt _hescape
    simp only [List.length_cons]
    omega
  · simp only [List.length_cons]
    omega

/-- Reads a string from behind its opening quote: its characters and the text behind it. -/
def decode (t : Text) : Except Fault (Text × Text) :=
  decodeFrom [] t

/-! ### What was written is read back -/

/-- A digit to base sixteen has the value that it was made from. -/
theorem hexValue?_hexDigit {n : Nat} (h : n < 16) : hexValue? (hexDigit n) = some n := by
  have all : ∀ n : Fin 16, hexValue? (hexDigit n) = some n.val := by decide
  exact all ⟨n, h⟩

/-- The four digits of a character below space are read as the character. -/
theorem readSpelled_control {c : Char} (h : c.toNat < 0x20) (rest : Text) :
    readSpelled ('0' :: '0' :: hexDigit (c.toNat / 16) :: hexDigit (c.toNat % 16) :: rest) =
      .ok (c, rest) := by
  have hunit : readUnit
      ('0' :: '0' :: hexDigit (c.toNat / 16) :: hexDigit (c.toNat % 16) :: rest) =
      .ok (c.toNat, rest) := by
    have hzero : hexValue? '0' = some 0 := by decide
    simp only [readUnit, hzero, hexValue?_hexDigit (show c.toNat / 16 < 16 by omega),
      hexValue?_hexDigit (Nat.mod_lt c.toNat (by decide : 16 > 0))]
    congr 2
    omega
  have htrailing : isTrailing c.toNat = false := by
    simp only [isTrailing, Bool.and_eq_false_iff, decide_eq_false_iff_not]
    omega
  have hleading : isLeading c.toNat = false := by
    simp only [isLeading, Bool.and_eq_false_iff, decide_eq_false_iff_not]
    omega
  simp [readSpelled, hunit, htrailing, hleading, Char.ofNat_toNat]

/-- An escaped character is read as itself. -/
theorem decodeFrom_escape (taken : Text) (c : Char) (rest : Text) :
    decodeFrom taken (escape c ++ rest) = decodeFrom (c :: taken) rest := by
  by_cases hquote : c = '"'
  · subst hquote
    rw [show escape '"' ++ rest = '\\' :: '"' :: rest from rfl, decodeFrom]
    simp [readEscape, escaped?]
  by_cases hbackslash : c = '\\'
  · subst hbackslash
    rw [show escape '\\' ++ rest = '\\' :: '\\' :: rest from rfl, decodeFrom]
    simp [readEscape, escaped?]
  by_cases hlow : c.toNat < 0x20
  · by_cases hnamed : c = '\x08' ∨ c = '\x0c' ∨ c = '\n' ∨ c = '\r' ∨ c = '\t'
    · rcases hnamed with rfl | rfl | rfl | rfl | rfl
      · rw [show escape '\x08' ++ rest = '\\' :: 'b' :: rest from rfl, decodeFrom]
        simp [readEscape, escaped?]
      · rw [show escape '\x0c' ++ rest = '\\' :: 'f' :: rest from rfl, decodeFrom]
        simp [readEscape, escaped?]
      · rw [show escape '\n' ++ rest = '\\' :: 'n' :: rest from rfl, decodeFrom]
        simp [readEscape, escaped?]
      · rw [show escape '\r' ++ rest = '\\' :: 'r' :: rest from rfl, decodeFrom]
        simp [readEscape, escaped?]
      · rw [show escape '\t' ++ rest = '\\' :: 't' :: rest from rfl, decodeFrom]
        simp [readEscape, escaped?]
    · simp only [not_or] at hnamed
      obtain ⟨h₁, h₂, h₃, h₄, h₅⟩ := hnamed
      have hescape : escape c ++ rest = '\\' :: 'u' :: '0' :: '0' :: hexDigit (c.toNat / 16) ::
          hexDigit (c.toNat % 16) :: rest := by
        simp [escape, hquote, hbackslash, h₁, h₂, h₃, h₄, h₅, hlow]
      have hread : readEscape ('u' :: '0' :: '0' :: hexDigit (c.toNat / 16) ::
          hexDigit (c.toNat % 16) :: rest) = .ok (c, rest) :=
        readSpelled_control hlow rest
      rw [hescape, decodeFrom, if_neg (by decide), if_pos rfl]
      split
      · rename_i e he
        rw [hread] at he
        cases he
      · rename_i escaped behind he
        rw [hread] at he
        cases he
        rfl
  · have hescape : escape c = [c] := by
      have h₁ : c ≠ '\x08' := by rintro rfl; exact hlow (by decide)
      have h₂ : c ≠ '\x0c' := by rintro rfl; exact hlow (by decide)
      have h₃ : c ≠ '\n' := by rintro rfl; exact hlow (by decide)
      have h₄ : c ≠ '\r' := by rintro rfl; exact hlow (by decide)
      have h₅ : c ≠ '\t' := by rintro rfl; exact hlow (by decide)
      simp [escape, hquote, hbackslash, h₁, h₂, h₃, h₄, h₅, hlow]
    rw [hescape, List.singleton_append, decodeFrom]
    simp [hquote, hbackslash, hlow]

/-- What was written is read back, whatever follows. -/
theorem decode_encode (t rest : Text) :
    decode (t.flatMap escape ++ '"' :: rest) = .ok (t, rest) := by
  have general : ∀ taken : Text,
      decodeFrom taken (t.flatMap escape ++ '"' :: rest) = .ok (taken.reverse ++ t, rest) := by
    induction t with
    | nil =>
      intro taken
      rw [List.flatMap_nil, List.nil_append, decodeFrom]
      simp
    | cons c t ih =>
      intro taken
      rw [List.flatMap_cons, List.append_assoc, decodeFrom_escape, ih]
      simp
  exact general []

end Quoted

end TreeSelect.Json
