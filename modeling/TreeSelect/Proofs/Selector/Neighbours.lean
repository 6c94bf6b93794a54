import TreeSelect.Proofs.Selector.Offsets
import TreeSelect.Proofs.Selector.Segments
/-!
# What stands beside a descendant combinator

Space is the descendant combinator only behind an operand and before a character that starts one.
The reader sees the operand behind it as a flag and the one before it as one character, and that is
enough: no symbol and no second space can come in between, and what that character starts is either
an operand or an error. So the descendant combinator never lacks an operand, while the others may.

A name goes as far as it can, and two names with space between them have a combinator between them
too. So no name is right behind another.

## Main statements

* `Lexes.exists_behind`: the tokens behind a token are those of the text behind it.
* `Lexes.operand_before_descendant`, `Lexes.operand_behind_descendant`: both sides of the descendant
  combinator.
* `operands_beside_descendant`: **the descendant combinator always has two operands.**
-/

namespace TreeSelect

/-- No symbol stands for the descendant combinator. -/
theorem Combinator.ofSymbol?_ne_descendant (x : Char) : ofSymbol? x ≠ some descendant := by
  unfold ofSymbol?
  split <;> simp

/-! ### Behind some tokens -/

namespace Lexes

variable {b : Bool} {token : Token} {before after tokens : List Token} {t : Text}

/-- The tokens behind a token are those of a text, on which no name goes on. -/
theorem exists_behind (h : Lexes b (token :: tokens) t) :
    ∃ r, Lexes (!token.isCombinator) tokens r ∧
      (token.endsInName = true → r.Stops isNameChar) := by
  generalize hall : token :: tokens = all at h
  induction h with
  | nil => cases hall
  | space nonempty spacing whole apart further ih => exact ih hall
  | descendant nonempty spacing whole between further =>
      cases hall
      exact ⟨_, further, nofun⟩
  | symbol isSymbol further =>
      cases hall
      exact ⟨_, further, nofun⟩
  | operand word whole further =>
      cases hall
      rw [word.isCombinator]
      exact ⟨_, further, whole⟩

/-- The tokens behind some others are those of a text. The flag of its reading tells of the last
token before it. -/
theorem exists_of_append (h : Lexes b (before ++ after) t) :
    ∃ r, Lexes ((before.getLast?.map fun last => !last.isCombinator).getD b) after r := by
  induction before generalizing b t with
  | nil => exact ⟨t, h⟩
  | cons token before ih =>
      obtain ⟨r, hr, -⟩ := exists_behind h
      obtain ⟨r', hr'⟩ := ih hr
      refine ⟨r', ?_⟩
      rw [List.getLast?_cons]
      cases hlast : before.getLast? with
      | none =>
          rw [hlast] at hr'
          exact hr'
      | some last =>
          rw [hlast] at hr'
          exact hr'

/-! ### The descendant combinator -/

/-- An operand is the first token of a text that starts one. -/
theorem operand_of_startsOperand (hwhole : t.Stops Text.isSpace) (hstart : startsOperand t = true)
    (h : Lexes b tokens t) : ∃ first ∈ tokens.head?, first.isCombinator = false := by
  cases h with
  | nil => cases hstart
  | space nonempty spacing => exact absurd hwhole (not_stops_of_spacing nonempty spacing)
  | descendant nonempty spacing => exact absurd hwhole (not_stops_of_spacing nonempty spacing)
  | symbol isSymbol =>
      rw [startsOperand, isSymbol] at hstart
      cases hstart
  | operand word => exact ⟨_, rfl, word.isCombinator⟩

/-- The first token is the descendant combinator only if an operand stands right before the text,
and then the next token is an operand. -/
theorem operand_behind_descendant (h : Lexes b (.combinator .descendant :: tokens) t) :
    b = true ∧ ∃ right ∈ tokens.head?, right.isCombinator = false := by
  generalize hall : Token.combinator .descendant :: tokens = all at h
  induction h with
  | nil => cases hall
  | space nonempty spacing whole apart further ih => exact ih hall
  | descendant nonempty spacing whole between further =>
      cases hall
      exact ⟨rfl, operand_of_startsOperand whole between further⟩
  | symbol isSymbol further =>
      cases hall
      exact absurd isSymbol (Combinator.ofSymbol?_ne_descendant _)
  | operand word =>
      cases hall
      cases word.isCombinator

/-- In a whole clause the token before a descendant combinator is an operand. -/
theorem operand_before_descendant
    (h : Lexes false (before ++ .combinator .descendant :: after) t) :
    ∃ left ∈ before.getLast?, left.isCombinator = false := by
  obtain ⟨r, hr⟩ := h.exists_of_append
  have hflag := hr.operand_behind_descendant.1
  cases hlast : before.getLast? with
  | none =>
      -- at the start of a clause no operand stands right before
      rw [hlast] at hflag
      cases hflag
  | some left =>
      rw [hlast] at hflag
      exact ⟨left, rfl, by simpa using hflag⟩

/-! ### Names -/

/-- No name is the next token behind a name. -/
theorem not_names {n m : Text} (h : Lexes b (.name n :: .name m :: tokens) t) : False := by
  obtain ⟨r, hr, hstops⟩ := h.exists_behind
  obtain ⟨w, r', rfl, hword, -, -⟩ := exists_word_of_lexes rfl (.inl rfl) hr
  cases hword with
  | name start further =>
      have hend := (hstops rfl).of_append.of_cons
      rw [isNameChar_of_isNameStart start] at hend
      cases hend

end Lexes

/-! ### Errors -/

/-- A missing operand is no lexical error. -/
theorem tokenize_ne_missingOperand (clause : Text) (c : Combinator) :
    tokenize clause ≠ .error (.missingOperand c) := by
  intro h
  have hfailure : (Token.readAll false (Cursor.start clause)).failure =
      some (.missingOperand c) := by
    simp only [tokenize, lex] at h
    split at h
    · cases h
    · rename_i hread
      cases h
      rw [hread]
  exact Token.pointsInto_of_readAll (Cursor.Inside.start clause) hfailure

/-- A combinator that lacks an operand has none before it or none behind it. -/
theorem Segments.Lacks.exists_split {cut : Segments} {c : Combinator} (h : cut.Lacks c) :
    ∃ before after, cut.tokens = before ++ .combinator c :: after ∧
      ((∀ left ∈ before.getLast?, left.isCombinator = true) ∨
        ∀ right ∈ after.head?, right.isCombinator = true) := by
  obtain ⟨head, rest⟩ := cut
  obtain ⟨hhead, segment, further, hrest⟩ | ⟨-, steps, further, hrest, -⟩ := h
  · obtain rfl : head = [] := hhead
    obtain rfl : rest = (c, segment) :: further := hrest
    exact ⟨[], tokens ⟨segment, further⟩, by rw [tokens_cons, List.nil_append], .inl (by simp)⟩
  · obtain rfl : rest = steps ++ (c, []) :: further := hrest
    refine ⟨tokens ⟨head, steps⟩, tokens ⟨[], further⟩, by simp [tokens], .inr ?_⟩
    -- behind the empty segment the next combinator follows, or nothing
    intro right hright
    cases further with
    | nil => cases hright
    | cons step further =>
        cases hright
        rfl

/-- In the tokens of a clause operands stand on both sides of a descendant combinator. -/
theorem operands_of_tokenize {clause : Text} {before after : List Token}
    (h : tokenize clause = .ok (before ++ .combinator .descendant :: after)) :
    (∃ left ∈ before.getLast?, left.isCombinator = false) ∧
      ∃ right ∈ after.head?, right.isCombinator = false := by
  have hlexes := tokenize_eq_ok_iff.mp h
  obtain ⟨r, hr⟩ := hlexes.exists_of_append
  exact ⟨hlexes.operand_before_descendant, hr.operand_behind_descendant.2⟩

/-- No descendant combinator is the first combinator of a clause that lacks an operand. -/
theorem not_lacks_descendant {clause : Text} {tokens : List Token}
    (h : tokenize clause = .ok tokens) : ¬ (Segments.ofTokens tokens).Lacks .descendant := by
  intro hlacks
  obtain ⟨before, after, hsplit, hnone⟩ := hlacks.exists_split
  rw [Segments.tokens_ofTokens] at hsplit
  obtain ⟨⟨left, hleft, hbefore⟩, right, hright, hafter⟩ := operands_of_tokenize (hsplit ▸ h)
  rcases hnone with hnone | hnone
  · rw [hnone left hleft] at hbefore
    cases hbefore
  · rw [hnone right hright] at hafter
    cases hafter

/-- **The descendant combinator always has two operands.** In the tokens of a clause an operand
stands right before every descendant combinator and another right behind it, and no name is right
behind another. So the descendant combinator is never reported as missing an operand, whatever the
clause. -/
theorem operands_beside_descendant (clause : Text) :
    (∀ tokens, tokenize clause = .ok tokens →
      (∀ before after, tokens = before ++ .combinator .descendant :: after →
        (∃ left ∈ before.getLast?, left.isCombinator = false) ∧
          ∃ right ∈ after.head?, right.isCombinator = false) ∧
      ∀ before n m after, tokens ≠ before ++ .name n :: .name m :: after) ∧
    Selector.parse clause ≠ .error (.missingOperand .descendant) := by
  refine ⟨fun tokens htokens => ⟨?_, ?_⟩, fun herror => ?_⟩
  · rintro before after rfl
    exact operands_of_tokenize htokens
  · rintro before n m after rfl
    obtain ⟨r, hr⟩ := (tokenize_eq_ok_iff.mp htokens).exists_of_append
    exact hr.not_names
  · rw [Selector.parse] at herror
    split at herror
    · rename_i e hlexical
      cases herror
      exact tokenize_ne_missingOperand clause .descendant hlexical
    · cases herror
    · rename_i tokens hne htokens
      exact not_lacks_descendant htokens
        ((Selector.ofTokens_eq_missingOperand_iff hne).mp herror)

/-- A clause with space in four places, which ends in a symbol. -/
def spacedClause : Text :=
  " ul\t .a > ".toList

/-- Only the space between the two operands is a combinator, and the one that lacks an operand is
the symbol. -/
theorem operands_beside_descendant_spacedClause :
    tokenize spacedClause =
        .ok [.name ['u', 'l'], .combinator .descendant, .className ['a'], .combinator .child] ∧
      (∃ left ∈ [Token.name ['u', 'l']].getLast?, left.isCombinator = false) ∧
      (∃ right ∈ [Token.className ['a'], .combinator .child].head?, right.isCombinator = false) ∧
      Selector.parse spacedClause = .error (.missingOperand .child) ∧
      Selector.parse spacedClause ≠ .error (.missingOperand .descendant) := by
  have htokens : tokenize spacedClause =
      .ok [.name ['u', 'l'], .combinator .descendant, .className ['a'], .combinator .child] := by
    decide +kernel
  obtain ⟨hread, hparse⟩ := operands_beside_descendant spacedClause
  obtain ⟨hleft, hright⟩ := (hread _ htokens).1 [.name ['u', 'l']] _ rfl
  exact ⟨htokens, hleft, hright, by decide +kernel, hparse⟩

end TreeSelect
