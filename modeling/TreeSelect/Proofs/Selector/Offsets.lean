import TreeSelect.Proofs.Selector.Lexing
/-!
# Where a lexical error points

A lexical error carries a place in the clause. The reader never searches for it: it is the place of
the cursor when the error is met, or the place of an opener that was handed on since it was read. So
it is enough that every cursor of a reading is inside the clause, which each reader keeps, and that
each reader knows what lies between the opener and its cursor.

The one error that speaks of text ahead is that of a bracket which is never closed. Closing brackets
may stand behind it all the same, but all of them are inside the quotes of the clause's operand,
where they close nothing.

## Main definitions

* `Cursor.Inside`: a cursor is a place in a clause.
* `OperandAhead`, `QuotedOperand`: an attribute clause up to its operand, and an operand in quotes.
* `ClauseError.PointsInto`: what stands in a clause where an error points.

## Main statements

* `AttributeToken.pointed_read`, `Token.pointed_read`: what one reading leads to.
* `Token.pointsInto_of_readAll`: the error that ends the reading of all tokens.
* `ClauseError.PointsInto.exists_behind`: an offset is one back from a place that is not the start.
* `pointsInto_of_tokenize`: **every lexical error points at what it says.**
-/

namespace TreeSelect

/-! ### Places in a clause -/

/-- A cursor is a place in a clause: the text ahead is an end of the clause, and the offset counts
the characters before it. -/
def Cursor.Inside (clause : Text) (c : Cursor) : Prop :=
  ∃ before, clause = before ++ c.rest ∧ c.offset = before.length

namespace Cursor.Inside

variable {clause : Text} {c : Cursor}

/-- The start of a clause is a place in it. -/
theorem start (clause : Text) : Inside clause (start clause) :=
  ⟨[], rfl, rfl⟩

/-- A place further on is a place in the clause. -/
theorem advance (h : Inside clause c) {w r : Text} (hrest : c.rest = w ++ r) :
    Inside clause ⟨c.offset + w.length, r⟩ := by
  obtain ⟨before, rfl, hoffset⟩ := h
  exact ⟨before ++ w, by rw [hrest, List.append_assoc], by rw [hoffset, List.length_append]⟩

/-- The place behind the next character is a place in the clause. -/
theorem next (h : Inside clause c) {x : Char} {r : Text} (hrest : c.rest = x :: r) :
    Inside clause ⟨c.offset + 1, r⟩ :=
  h.advance (w := [x]) hrest

/-- The place behind a run is a place in the clause. -/
theorem skip (h : Inside clause c) (p : Char → Bool) : Inside clause (c.skip p) :=
  h.advance (c.run_append_rest_skip p).symm

/-- The place behind space is a place in the clause. -/
theorem skipSpace (h : Inside clause c) : Inside clause c.skipSpace :=
  h.skip Text.isSpace

/-- What stands in the clause from a place on is what is ahead there. -/
theorem getElem?_add (h : Inside clause c) (k : Nat) : clause[c.offset + k]? = c.rest[k]? := by
  obtain ⟨before, rfl, hoffset⟩ := h
  rw [hoffset, List.getElem?_append_right (Nat.le_add_right _ _), Nat.add_sub_cancel_left]

/-- What stands in the clause at a place is the next character there. -/
theorem getElem? (h : Inside clause c) : clause[c.offset]? = c.rest.head? := by
  rw [List.head?_eq_getElem?]
  exact h.getElem?_add 0

/-- What stands in the clause behind a place is ahead there. -/
theorem mem_of_getElem? (h : Inside clause c) {k : Nat} (hk : c.offset ≤ k) {x : Char}
    (hx : clause[k]? = some x) : x ∈ c.rest := by
  obtain ⟨i, rfl⟩ := Nat.exists_eq_add_of_le hk
  rw [h.getElem?_add] at hx
  exact List.mem_of_getElem? hx

/-- No place lies behind the end of the clause. -/
theorem offset_le (h : Inside clause c) : c.offset ≤ clause.length := by
  obtain ⟨before, rfl, hoffset⟩ := h
  rw [hoffset, List.length_append]
  exact Nat.le_add_right _ _

/-- Before the next character a place lies before the end of the clause. -/
theorem offset_lt (h : Inside clause c) {x : Char} {r : Text} (hrest : c.rest = x :: r) :
    c.offset < clause.length :=
  (h.next hrest).offset_le

/-- Every number up to the length of the clause is the offset of a place in it. -/
theorem of_le {k : Nat} (h : k ≤ clause.length) : Inside clause ⟨k, clause.drop k⟩ :=
  ⟨clause.take k, (List.take_append_drop k clause).symm, (List.length_take_of_le h).symm⟩

/-- Behind every character of the clause is a place in it. -/
theorem behind {k : Nat} {x : Char} (h : clause[k]? = some x) :
    Inside clause ⟨k + 1, clause.drop (k + 1)⟩ :=
  of_le (List.getElem?_eq_some_iff.mp h).1

end Cursor.Inside

/-! ### What errors point at -/

/-- An attribute clause from its bracket up to the place where its operand starts. -/
def OperandAhead (front : Text) : Prop :=
  ∃ g₁ name g₂ operator g₃, front = '[' :: (g₁ ++ (name ++ (g₂ ++ (operator ++ g₃)))) ∧
    Spacing g₁ ∧ IsName name ∧ Spacing g₂ ∧ operator ≠ [] ∧
    (∀ c ∈ operator, isOperatorChar c = true) ∧ Spacing g₃

/-- The operand of the attribute clause that is opened at a place is quoted, and its two quotes
stand at two further places. -/
def QuotedOperand (clause : Text) (opening first last : Nat) : Prop :=
  ∃ front operand behind quote,
    clause.drop opening = front ++ quote :: (operand ++ quote :: behind) ∧ OperandAhead front ∧
      isQuote quote = true ∧ quote ∉ operand ∧
      first = opening + front.length ∧ last = first + 1 + operand.length

namespace ClauseError

/-- The place that an error points at, if it has one. -/
def offset? : ClauseError → Option Nat
  | unexpectedCharacter _ offset => some offset
  | expectedName _ offset => some offset
  | unclosedAttribute offset => some offset
  | unclosedQuote offset => some offset
  | _ => none

/-- What stands in a clause where a lexical error points. An unexpected character stands there.
Where a name is expected no name goes on, and the sigil stands right before, or the bracket with
nothing but space between. An unclosed bracket stands there, and every closing bracket behind it is
inside the quotes of its operand. An unclosed quote stands there and not again behind it. -/
def PointsInto (clause : Text) : ClauseError → Prop
  | unexpectedCharacter found offset => clause[offset]? = some found
  | expectedName sigil offset =>
      (∀ c ∈ clause[offset]?, isNameChar c = false) ∧
        ((sigil = '#' ∨ sigil = '.') ∧
            (∃ before, offset = before + 1 ∧ clause[before]? = some sigil) ∨
          sigil = '[' ∧ offset < clause.length ∧ ∃ opening < offset, clause[opening]? = some '[' ∧
            ∀ k, opening < k → k < offset → ∃ c, clause[k]? = some c ∧ Text.isSpace c = true)
  | unclosedAttribute offset =>
      clause[offset]? = some '[' ∧ ∀ k, offset < k → clause[k]? = some ']' →
        ∃ first last, QuotedOperand clause offset first last ∧ first < k ∧ k < last
  | unclosedQuote offset =>
      ∃ quote, isQuote quote = true ∧ clause[offset]? = some quote ∧
        ∀ k, offset < k → clause[k]? ≠ some quote
  | _ => False

variable {clause : Text} {e : ClauseError}

/-- An error that points into a clause has a place, which is no further than the clause's end; only
behind a sigil may it be the end. -/
theorem PointsInto.offset_le (h : e.PointsInto clause) :
    ∃ offset, e.offset? = some offset ∧ offset ≤ clause.length ∧
      (offset < clause.length ∨ e = .expectedName '#' offset ∨ e = .expectedName '.' offset) := by
  have hlt : ∀ {k : Nat} {c : Char}, clause[k]? = some c → k < clause.length := fun hk =>
    (List.getElem?_eq_some_iff.mp hk).1
  cases e with
  | unexpectedCharacter found offset => exact ⟨offset, rfl, Nat.le_of_lt (hlt h), .inl (hlt h)⟩
  | expectedName sigil offset =>
      obtain ⟨-, ⟨hsigil, before, rfl, hbefore⟩ | ⟨-, hoffset, -⟩⟩ := h
      · refine ⟨before + 1, rfl, hlt hbefore, .inr ?_⟩
        rcases hsigil with rfl | rfl
        · exact .inl rfl
        · exact .inr rfl
      · exact ⟨offset, rfl, Nat.le_of_lt hoffset, .inl hoffset⟩
  | unclosedAttribute offset => exact ⟨offset, rfl, Nat.le_of_lt (hlt h.1), .inl (hlt h.1)⟩
  | unclosedQuote offset =>
      obtain ⟨quote, -, hquote, -⟩ := h
      exact ⟨offset, rfl, Nat.le_of_lt (hlt hquote), .inl (hlt hquote)⟩
  | missingOperand | duplicateId | attributeNotLast | misplacedType | emptyClause => cases h

/-- The offset of an error is that of a character in the clause, one back from the place behind it,
or a name is missing and the offset is that of the place where it was looked for. Neither place is
the start of the clause, so that one can go back from it. -/
theorem PointsInto.exists_behind (h : e.PointsInto clause) :
    ∃ behind : Cursor, behind.Inside clause ∧ 0 < behind.offset ∧
      (e.offset? = some (behind.offset - 1) ∨ ∃ sigil, e = .expectedName sigil behind.offset) := by
  cases e with
  | unexpectedCharacter found offset => exact ⟨_, .behind h, offset.succ_pos, .inl rfl⟩
  | expectedName sigil offset =>
      obtain ⟨-, ⟨-, before, rfl, hbefore⟩ | ⟨-, hoffset, opening, hopening, -⟩⟩ := h
      · exact ⟨_, .behind hbefore, before.succ_pos, .inr ⟨sigil, rfl⟩⟩
      · exact ⟨_, .of_le (Nat.le_of_lt hoffset), Nat.zero_lt_of_lt hopening, .inr ⟨sigil, rfl⟩⟩
  | unclosedAttribute offset => exact ⟨_, .behind h.1, offset.succ_pos, .inl rfl⟩
  | unclosedQuote offset =>
      obtain ⟨quote, -, hquote, -⟩ := h
      exact ⟨_, .behind hquote, offset.succ_pos, .inl rfl⟩
  | missingOperand | duplicateId | attributeNotLast | misplacedType | emptyClause => cases h

end ClauseError

/-! ### What one reading leads to -/

/-- A reading ends at a place in the clause, or with an error that points into it. -/
def Reading.Pointed {α : Type} (clause : Text) : Reading α → Prop
  | .ok (_, next) => next.Inside clause
  | .error e => e.PointsInto clause

/-- Applying a function to what was read changes nothing about the place. -/
theorem Reading.Pointed.map {α β : Type} {clause : Text} {r : Reading α} (h : r.Pointed clause)
    (f : α → β) : (r.map f).Pointed clause := by
  cases r with
  | error e => exact h
  | ok p => exact h

/-- No space, no part of a name and no part of an operator is a closing bracket. -/
theorem notMem_of_class {p : Char → Bool} (hp : p ']' = false) {w : Text}
    (hw : ∀ c ∈ w, p c = true) : ']' ∉ w := by
  intro hmem
  rw [hw ']' hmem] at hp
  cases hp

/-- There is no closing bracket in space. -/
theorem notMem_of_spacing {g : Text} (hg : Spacing g) : ']' ∉ g :=
  notMem_of_class (p := Text.isSpace) (by decide) hg

/-- There is no closing bracket in a run of name characters. -/
theorem notMem_of_isNameChar {name : Text} (hname : ∀ c ∈ name, isNameChar c = true) :
    ']' ∉ name :=
  notMem_of_class (p := isNameChar) (by decide) hname

namespace OperandAhead

variable {front : Text}

/-- An attribute clause starts with its bracket. -/
theorem exists_cons (h : OperandAhead front) : ∃ body, front = '[' :: body := by
  obtain ⟨_, _, _, _, _, rfl, -⟩ := h
  exact ⟨_, rfl⟩

/-- Up to its operand an attribute clause has no closing bracket. -/
theorem notMem (h : OperandAhead front) : ']' ∉ front := by
  obtain ⟨g₁, name, g₂, operator, g₃, rfl, hg₁, hname, hg₂, -, hoperator, hg₃⟩ := h
  have hsigns : ']' ∉ operator := notMem_of_class (p := isOperatorChar) (by decide) hoperator
  simp [notMem_of_spacing hg₁, notMem_of_isNameChar hname.2, notMem_of_spacing hg₂, hsigns,
    notMem_of_spacing hg₃]

end OperandAhead

variable {clause : Text}

/-- The next character is unexpected where it stands. -/
theorem pointsInto_unexpectedCharacter {c : Cursor} (h : c.Inside clause) {found : Char} {t : Text}
    (hcons : c.rest = found :: t) :
    (ClauseError.unexpectedCharacter found c.offset).PointsInto clause := by
  show clause[c.offset]? = some found
  rw [h.getElem?, hcons]
  rfl

/-- A bracket without a closing bracket behind it is not closed. -/
theorem pointsInto_unclosedAttribute {opening : Nat} {t : Text}
    (h : Cursor.Inside clause ⟨opening, '[' :: t⟩) (ht : ']' ∉ t) :
    (ClauseError.unclosedAttribute opening).PointsInto clause := by
  refine ⟨h.getElem?, fun k hk hclosing => ?_⟩
  exact absurd ((h.next rfl).mem_of_getElem? hk hclosing) ht

/-- Of a text in three parts, what is in neither outer part stands in the middle one. -/
theorem middle_of_getElem? {front middle behind : Text} {x : Char} {k : Nat}
    (hx : (front ++ (middle ++ behind))[k]? = some x) (hfront : x ∉ front) (hbehind : x ∉ behind) :
    front.length ≤ k ∧ k < front.length + middle.length := by
  constructor
  · refine Nat.le_of_not_lt fun hlt => hfront ?_
    rw [List.getElem?_append_left hlt] at hx
    exact List.mem_of_getElem? hx
  · refine Nat.lt_of_not_le fun hle => hbehind ?_
    rw [← List.append_assoc, List.getElem?_append_right (by simpa using hle)] at hx
    exact List.mem_of_getElem? hx

/-- A bracket whose clause ends behind a quoted operand is not closed: the closing brackets behind
it are inside the quotes. -/
theorem pointsInto_unclosedAttribute_of_quoted {opening : Nat} {front operand behind : Text}
    {quote : Char} (hfront : OperandAhead front) (hquote : isQuote quote = true)
    (hinside : quote ∉ operand) (hbehind : Spacing behind)
    (h : Cursor.Inside clause ⟨opening, front ++ quote :: (operand ++ quote :: behind)⟩) :
    (ClauseError.unclosedAttribute opening).PointsInto clause := by
  have hdrop : clause.drop opening = front ++ quote :: (operand ++ quote :: behind) := by
    obtain ⟨before, rfl, rfl⟩ := h
    exact List.drop_left
  have hopening : clause[opening]? = some '[' := by
    obtain ⟨body, rfl⟩ := hfront.exists_cons
    exact h.getElem?
  have hne : ']' ≠ quote := by
    rintro rfl
    revert hquote
    decide
  refine ⟨hopening, fun k hk hclosing => ⟨_, _,
    ⟨front, operand, behind, quote, hdrop, hfront, hquote, hinside, rfl, rfl⟩, ?_⟩⟩
  obtain ⟨i, rfl⟩ := Nat.exists_eq_add_of_le (Nat.le_of_lt hk)
  rw [h.getElem?_add] at hclosing
  change (front ++ quote :: (operand ++ quote :: behind))[i]? = some ']' at hclosing
  rw [List.append_cons] at hclosing
  have hplace := middle_of_getElem? hclosing (by simp [hfront.notMem, hne])
    (by simp [hne, notMem_of_spacing hbehind])
  rw [List.length_append, List.length_singleton] at hplace
  omega

/-- The name behind a sigil is read, or it is missed where the sigil ends. -/
theorem pointed_readName {sigil : Char} {offset : Nat} {rest : Text}
    (hsigil : sigil = '#' ∨ sigil = '.') (h : Cursor.Inside clause ⟨offset, sigil :: rest⟩) :
    (readName sigil ⟨offset + 1, rest⟩).Pointed clause := by
  have hnext : Cursor.Inside clause ⟨offset + 1, rest⟩ := h.next rfl
  obtain ⟨hrest, -, hstops⟩ := Cursor.exists_run ⟨offset + 1, rest⟩ isNameChar
  simp only [readName]
  split
  · rename_i hempty
    rw [List.isEmpty_iff.mp hempty, List.nil_append] at hrest
    refine ⟨?_, .inl ⟨hsigil, offset, rfl, h.getElem?⟩⟩
    rw [hnext.getElem?, hrest]
    exact hstops
  · exact hnext.skip isNameChar

/-- A quoted operand is read up to its second quote, or its first quote is not closed. -/
theorem pointed_readQuoted {quote : Char} {offset : Nat} {rest : Text}
    (hquote : isQuote quote = true) (h : Cursor.Inside clause ⟨offset, quote :: rest⟩) :
    (readQuoted quote offset ⟨offset + 1, rest⟩).Pointed clause := by
  have hnext : Cursor.Inside clause ⟨offset + 1, rest⟩ := h.next rfl
  obtain ⟨hrest, hrun, -⟩ := Cursor.exists_run ⟨offset + 1, rest⟩ (· != quote)
  simp only [readQuoted]
  split
  · rename_i hnil
    rw [hnil, List.append_nil] at hrest
    refine ⟨quote, hquote, h.getElem?, fun k hk hagain => ?_⟩
    have hmem := hnext.mem_of_getElem? hk hagain
    rw [hrest] at hmem
    simpa using hrun quote hmem
  · rename_i hcons
    exact (hnext.skip _).next hcons

/-- A closing bracket is read, or another character stands there, or the clause is not closed. -/
theorem pointed_readClosing {opening : Nat} {c : Cursor} (h : c.Inside clause)
    (hopen : c.rest = [] → (ClauseError.unclosedAttribute opening).PointsInto clause) :
    (readClosing opening c).Pointed clause := by
  simp only [readClosing]
  split
  · rename_i hnil
    exact hopen hnil
  · rename_i hcons
    exact h.next hcons
  · rename_i hcons
    exact pointsInto_unexpectedCharacter h hcons

/-- An operand without quotes is read with the closing bracket, or a character stands in it or
behind it that may not, or the clause is not closed. -/
theorem pointed_readBare {opening : Nat} {c : Cursor} (h : c.Inside clause)
    (hopen : ']' ∉ c.rest → (ClauseError.unclosedAttribute opening).PointsInto clause) :
    (readBare opening c).Pointed clause := by
  obtain ⟨hrest, hrun, -⟩ := c.exists_run isBareChar
  have hbehind := h.skip isBareChar
  simp only [readBare]
  split
  · rename_i hnil
    rw [hnil, List.append_nil] at hrest
    exact hopen (hrest ▸ notMem_of_class (by decide) hrun)
  · rename_i rest hcons
    split
    · exact pointsInto_unexpectedCharacter hbehind hcons
    · exact hbehind.next hcons
  · rename_i hcons
    exact pointsInto_unexpectedCharacter hbehind hcons

/-- An operand is read, quoted or not, with the closing bracket, or the error points at what is
wrong. -/
theorem pointed_readOperand {opening : Nat} {front : Text} {c : Cursor}
    (hfront : OperandAhead front) (hclause : Cursor.Inside clause ⟨opening, front ++ c.rest⟩)
    (h : c.Inside clause) :
    (readOperand opening c).Pointed clause := by
  have hopen : ']' ∉ c.rest → (ClauseError.unclosedAttribute opening).PointsInto clause := by
    intro hrest
    have hall : ']' ∉ front ++ c.rest := by simp [hfront.notMem, hrest]
    obtain ⟨body, rfl⟩ := hfront.exists_cons
    exact pointsInto_unclosedAttribute hclause fun hmem => hall (List.mem_cons_of_mem _ hmem)
  simp only [readOperand]
  split
  · rename_i hnil
    exact hopen (by rw [hnil]; exact List.not_mem_nil)
  · rename_i first rest hcons
    split
    · rename_i hquote
      have hfirst : Cursor.Inside clause ⟨c.offset, first :: rest⟩ := by
        rw [← hcons]
        exact h
      have hread := pointed_readQuoted hquote hfirst
      split
      · rename_i hquoted
        rw [hquoted] at hread
        exact hread
      · rename_i operand behind hquoted
        rw [hquoted] at hread
        obtain ⟨hsplit, hinside⟩ := exists_of_readQuoted hquoted
        obtain ⟨hspace, hspacing, -⟩ := behind.exists_space
        have hbehind : behind.Inside clause := hread
        refine Reading.Pointed.map (pointed_readClosing hbehind.skipSpace fun hnil => ?_) _
        change rest = _ at hsplit
        rw [hnil, List.append_nil] at hspace
        rw [hcons, hsplit, hspace] at hclause
        exact pointsInto_unclosedAttribute_of_quoted hfront hquote hinside hspacing hclause
    · exact pointed_readBare h hopen

/-- Where no name goes on behind a bracket and space, a name is expected. -/
theorem pointsInto_expectedName {opening : Nat} {g t : Text}
    (h : Cursor.Inside clause ⟨opening, '[' :: (g ++ t)⟩) (hg : Spacing g) (ht : t ≠ [])
    (hstops : t.Stops isNameChar) :
    (ClauseError.expectedName '[' (opening + 1 + g.length)).PointsInto clause := by
  have hbehind : Cursor.Inside clause ⟨opening + 1, g ++ t⟩ := h.next rfl
  have hplace : Cursor.Inside clause ⟨opening + 1 + g.length, t⟩ := hbehind.advance rfl
  obtain ⟨x, r, hcons⟩ := List.exists_cons_of_ne_nil ht
  refine ⟨?_, .inr ⟨rfl, hplace.offset_lt hcons, opening, by omega, h.getElem?, fun k hlt hk => ?_⟩⟩
  · rw [hplace.getElem?]
    exact hstops
  · obtain ⟨i, rfl⟩ := Nat.exists_eq_add_of_le (Nat.succ_le_of_lt hlt)
    have hi : i < g.length := by omega
    refine ⟨g[i], ?_, hg _ (List.getElem_mem hi)⟩
    rw [hbehind.getElem?_add, List.getElem?_append_left hi, List.getElem?_eq_getElem hi]

/-- An attribute clause is read, or the error points at what is wrong with it. -/
theorem AttributeToken.pointed_read {opening : Nat} {rest : Text}
    (h : Cursor.Inside clause ⟨opening, '[' :: rest⟩) :
    (AttributeToken.read opening ⟨opening + 1, rest⟩).Pointed clause := by
  have hatName : (Cursor.skipSpace ⟨opening + 1, rest⟩).Inside clause := (h.next rfl).skipSpace
  have hbehindName :
      ((Cursor.skipSpace ⟨opening + 1, rest⟩).skip isNameChar).skipSpace.Inside clause :=
    (hatName.skip isNameChar).skipSpace
  obtain ⟨hstart, hg₁, -⟩ := Cursor.exists_space ⟨opening + 1, rest⟩
  obtain ⟨hname, hchars, hstops⟩ := (Cursor.skipSpace ⟨opening + 1, rest⟩).exists_run isNameChar
  obtain ⟨hspace, hg₂, -⟩ :=
    ((Cursor.skipSpace ⟨opening + 1, rest⟩).skip isNameChar).exists_space
  change rest = _ at hstart
  simp only [AttributeToken.read]
  split
  · rename_i hempty
    rw [List.isEmpty_iff.mp hempty, List.nil_append] at hname
    split
    · rename_i hnil
      rw [List.isEmpty_iff.mp hnil, List.append_nil] at hstart
      exact pointsInto_unclosedAttribute h (hstart ▸ notMem_of_spacing hg₁)
    · rename_i hsome
      rw [hstart] at h
      exact pointsInto_expectedName h hg₁ (by simpa using hsome) (hname ▸ hstops)
  · rename_i hnonempty
    rw [hname, hspace] at hstart
    split
    · rename_i hnil
      refine pointsInto_unclosedAttribute h ?_
      rw [hstart, hnil]
      simp [notMem_of_spacing hg₁, notMem_of_isNameChar hchars, notMem_of_spacing hg₂]
    · rename_i hclosing
      exact hbehindName.next hclosing
    · rename_i hfound
      split
      · exact pointsInto_unexpectedCharacter hbehindName hfound
      · rename_i hsome
        generalize ((Cursor.skipSpace ⟨opening + 1, rest⟩).skip isNameChar).skipSpace = behindName
          at hstart hbehindName hsome ⊢
        -- an operator is read, so what is behind it is an operand
        obtain ⟨hoperator, hsigns, -⟩ := behindName.exists_run isOperatorChar
        obtain ⟨hbefore, hg₃, -⟩ := (behindName.skip isOperatorChar).exists_space
        have hfront : OperandAhead _ := ⟨_, _, _, _, _, rfl, hg₁,
          ⟨by simpa using hnonempty, hchars⟩, hg₂, by simpa using hsome, hsigns, hg₃⟩
        refine (pointed_readOperand hfront ?_ ?_).map _
        · rw [hstart, hoperator, hbefore] at h
          simpa only [List.cons_append, List.append_assoc] using h
        · exact (hbehindName.skip isOperatorChar).skipSpace

namespace Token

/-- A token or a run of space is read, or the error points at what is wrong. -/
theorem pointed_read {b : Bool} {o : Nat} {first : Char} {rest : Text}
    (h : Cursor.Inside clause ⟨o, first :: rest⟩) : (read b o first rest).Pointed clause := by
  have hnext : Cursor.Inside clause ⟨o + 1, rest⟩ := h.next rfl
  simp only [read]
  split
  · split <;> exact hnext.skipSpace
  · split
    · exact hnext
    · split
      · exact hnext
      · exact (pointed_readName (.inl rfl) h).map _
      · exact (pointed_readName (.inr rfl) h).map _
      · exact (AttributeToken.pointed_read h).map _
      · split
        · exact hnext.skip isNameChar
        · exact pointsInto_unexpectedCharacter h rfl

/-- The error that ends the reading of all tokens points at what it says. The induction is on the
text ahead, which every reading leaves shorter. -/
theorem pointsInto_of_readAll {b : Bool} {c : Cursor} {e : ClauseError} (h : c.Inside clause)
    (hfailure : (readAll b c).failure = some e) : e.PointsInto clause := by
  induction hlength : c.rest.length using Nat.strongRecOn generalizing b c with
  | ind length ih =>
      obtain ⟨o, t⟩ := c
      cases t with
      | nil =>
          rw [readAll_nil] at hfailure
          cases hfailure
      | cons first rest =>
          have hread := pointed_read (b := b) h
          rw [readAll_cons] at hfailure
          rw [List.length_cons] at hlength
          split at hfailure
          · rename_i herror
            rw [herror] at hread
            cases hfailure
            exact hread
          · rename_i next hspace
            have hshorter := length_rest_read_le hspace
            rw [hspace] at hread
            exact ih _ (by omega) hread hfailure rfl
          · rename_i token next htoken
            have hshorter := length_rest_read_le htoken
            rw [htoken] at hread
            exact ih _ (by omega) hread hfailure rfl

end Token

/-- **Every lexical error points at what it says**: what stands in the clause at its offset, before
it and behind it is what the error speaks of. Every lexical error has an offset, which is no further
than the end of the clause; only a name that is missing behind a sigil may be missing at the end.
A reader that has read the character at the offset, and goes one back from where it is then, goes
back from a place in the clause that is not the start. -/
theorem pointsInto_of_tokenize {e : ClauseError} (h : tokenize clause = .error e) :
    e.PointsInto clause ∧
      (∃ offset, e.offset? = some offset ∧ offset ≤ clause.length ∧
        (offset < clause.length ∨ e = .expectedName '#' offset ∨ e = .expectedName '.' offset)) ∧
      ∃ behind : Cursor, behind.Inside clause ∧ 0 < behind.offset ∧
        (e.offset? = some (behind.offset - 1) ∨
          ∃ sigil, e = .expectedName sigil behind.offset) := by
  have hpoints : e.PointsInto clause := by
    refine Token.pointsInto_of_readAll (b := false) (Cursor.Inside.start clause) ?_
    simp only [tokenize, lex] at h
    split at h
    · cases h
    · rename_i hread
      cases h
      rw [hread]
  exact ⟨hpoints, hpoints.offset_le, hpoints.exists_behind⟩

/-- A clause whose only closing bracket is its quoted operand. -/
def bracketOperand : Text :=
  "a[x=']'".toList

/-- The bracket is not closed, since the closing bracket behind it is quoted. -/
theorem pointsInto_of_tokenize_bracketOperand :
    tokenize bracketOperand = .error (.unclosedAttribute 1) ∧ 1 < bracketOperand.length ∧
      bracketOperand[1]? = some '[' ∧ bracketOperand[5]? = some ']' ∧
      ∃ first last, QuotedOperand bracketOperand 1 first last ∧ first < 5 ∧ 5 < last := by
  have hread : tokenize bracketOperand = .error (.unclosedAttribute 1) := by decide +kernel
  obtain ⟨⟨hopening, hclosing⟩, ⟨offset, hoffset, -, hplace⟩, -⟩ := pointsInto_of_tokenize hread
  cases hoffset
  refine ⟨hread, ?_, hopening, rfl, hclosing 5 (by decide) rfl⟩
  rcases hplace with hlt | hsigil | hsigil
  · exact hlt
  · cases hsigil
  · cases hsigil

end TreeSelect
