import TreeSelect.Proofs.Selector.Bracketed
/-!
# What the token reader reads

The reading of tokens is a function with offsets, a flag and errors. Here it is set against two
relations that have none of these: `Token.Word` says which texts are which operand token, and
`Lexes` says which texts hold which tokens, space being a token or not by what stands beside it.

## Main definitions

* `Token.Word`: the texts of an operand token.
* `Lexes`: the texts of a list of tokens.

## Main statements

* `Token.readAll_eq_iff`: tokens are read without failure exactly from the texts that hold them.
* `tokenize_eq_ok_iff`: a clause has no lexical error exactly if it holds tokens.
-/

namespace TreeSelect

/-! ### First characters -/

/-- A character is read as a combinator exactly if it is its symbol. -/
theorem Combinator.ofSymbol?_eq_some_iff {x : Char} {c : Combinator} :
    ofSymbol? x = some c ↔ c.Symbol x := by
  constructor
  · intro h
    unfold ofSymbol? at h
    split at h <;> cases h <;> constructor
  · rintro (_ | _ | _ | _) <;> rfl

/-- A symbol is neither space nor a part of a name. -/
theorem Combinator.isNameChar_of_ofSymbol? {x : Char} {c : Combinator} (h : ofSymbol? x = some c) :
    Text.isSpace x = false ∧ isNameChar x = false := by
  cases ofSymbol?_eq_some_iff.mp h <;> decide

/-- A character that starts a name is no symbol and has no other meaning. -/
theorem isNameStart_ne {c : Char} (h : isNameStart c = true) :
    Text.isSpace c = false ∧ Combinator.ofSymbol? c = none ∧ c ≠ '*' ∧ c ≠ '#' ∧ c ≠ '.' ∧
      c ≠ '[' := by
  have hspace : Text.isSpace c = false := by
    cases hc : Text.isSpace c with
    | false => rfl
    | true =>
        have hname := isNameChar_of_isNameStart h
        rw [isNameChar_eq_false_of_isSpace hc] at hname
        cases hname
  refine ⟨hspace, ?_, ?_, ?_, ?_, ?_⟩
  · cases hsymbol : Combinator.ofSymbol? c with
    | none => rfl
    | some k =>
        have hname := isNameChar_of_isNameStart h
        rw [(Combinator.isNameChar_of_ofSymbol? hsymbol).2] at hname
        cases hname
  all_goals
    rintro rfl
    revert h
    decide

/-! ### Tokens -/

namespace Token

/-- The texts of an operand token. -/
inductive Word : Token → Text → Prop
  | name {c : Char} {n : Text} (start : isNameStart c = true)
      (further : ∀ x ∈ n, isNameChar x = true) : Word (.name (c :: n)) (c :: n)
  | universal : Word .universal ['*']
  | id {n : Text} (isName : IsName n) : Word (.id n) ('#' :: n)
  | className {n : Text} (isName : IsName n) : Word (.className n) ('.' :: n)
  | bracketed {clause : AttributeToken} {w : Text} (spelled : clause.Spelling w) :
      Word (.bracketed clause) w

/-- Whether the text of a token ends in a name, which goes on as long as it can. -/
def endsInName : Token → Bool
  | name _ => true
  | id _ => true
  | className _ => true
  | _ => false

/-- Only operands have words. -/
theorem Word.isCombinator {token : Token} {w : Text} (h : token.Word w) :
    token.isCombinator = false := by
  cases h <;> rfl

/-- A name behind a sigil is read as far as it goes. -/
theorem readName_append {n t : Text} (hname : IsName n) (ht : t.Stops isNameChar) (sigil : Char)
    (o : Nat) : readName sigil ⟨o, n ++ t⟩ = .ok (n, ⟨o + n.length, t⟩) := by
  simp [readName, Cursor.run_append hname.2 ht, Cursor.skip_append hname.2 ht, hname.1]

/-- What is read behind a sigil is a name that could not go on. -/
theorem isName_of_readName {sigil : Char} {c next : Cursor} {n : Text}
    (h : readName sigil c = .ok (n, next)) :
    IsName n ∧ c.rest = n ++ next.rest ∧ next.rest.Stops isNameChar := by
  obtain ⟨hrest, hchars, hstops⟩ := c.exists_run isNameChar
  simp only [readName] at h
  split at h
  · cases h
  · rename_i hnonempty
    cases h
    exact ⟨⟨by simpa using hnonempty, hchars⟩, hrest, hstops⟩

/-- An operand token is read from its words, where a name could not go on. -/
theorem Word.read_eq_ok {token : Token} {w t : Text} (h : token.Word w)
    (ht : token.endsInName = true → t.Stops isNameChar) (b : Bool) (o : Nat) :
    ∃ first rest o', w ++ t = first :: rest ∧
      read b o first rest = .ok (some token, ⟨o', t⟩) := by
  cases h with
  | @name c n start further =>
      obtain ⟨hspace, hsymbol, hstar, hhash, hdot, hbracket⟩ := isNameStart_ne start
      refine ⟨c, n ++ t, o + 1 + n.length, rfl, ?_⟩
      -- the character is none of the four sigils
      simp only [read, hspace, hsymbol, start, Bool.false_eq_true, if_false, if_true,
        Cursor.run_append further (ht rfl), Cursor.skip_append further (ht rfl)]
  | universal => exact ⟨'*', t, o + 1, rfl, rfl⟩
  | @id n isName =>
      refine ⟨'#', n ++ t, o + 1 + n.length, rfl, ?_⟩
      simp [read, Text.isSpace, Combinator.ofSymbol?, readName_append isName (ht rfl),
        Reading.map]
  | @className n isName =>
      refine ⟨'.', n ++ t, o + 1 + n.length, rfl, ?_⟩
      simp [read, Text.isSpace, Combinator.ofSymbol?, readName_append isName (ht rfl),
        Reading.map]
  | @bracketed clause w spelled =>
      obtain ⟨body, rfl⟩ : ∃ body, w = '[' :: body := by cases spelled <;> exact ⟨_, rfl⟩
      obtain ⟨o', hread⟩ := spelled.read_eq_ok o (o + 1) t
      refine ⟨'[', body ++ t, o', rfl, ?_⟩
      simp [read, Text.isSpace, Combinator.ofSymbol?, hread, Reading.map]

end Token

/-- The texts that hold a list of tokens without failure; the flag tells whether an operand stands
right before the text. A run of space is read as a whole: behind an operand and before another it
is the descendant combinator, and nothing elsewhere. -/
inductive Lexes : Bool → List Token → Text → Prop
  | nil {b : Bool} : Lexes b [] []
  | space {b : Bool} {tokens : List Token} {g t : Text} (nonempty : g ≠ []) (spacing : Spacing g)
      (whole : t.Stops Text.isSpace) (apart : (b && startsOperand t) = false)
      (further : Lexes b tokens t) : Lexes b tokens (g ++ t)
  | descendant {tokens : List Token} {g t : Text} (nonempty : g ≠ []) (spacing : Spacing g)
      (whole : t.Stops Text.isSpace) (between : startsOperand t = true)
      (further : Lexes false tokens t) :
      Lexes true (.combinator .descendant :: tokens) (g ++ t)
  | symbol {b : Bool} {tokens : List Token} {x : Char} {c : Combinator} {t : Text}
      (isSymbol : Combinator.ofSymbol? x = some c) (further : Lexes false tokens t) :
      Lexes b (.combinator c :: tokens) (x :: t)
  | operand {b : Bool} {token : Token} {tokens : List Token} {w t : Text} (word : token.Word w)
      (whole : token.endsInName = true → t.Stops isNameChar) (further : Lexes true tokens t) :
      Lexes b (token :: tokens) (w ++ t)

namespace Token

/-- Nothing is read from the empty text. -/
theorem readAll_nil (b : Bool) (o : Nat) : readAll b ⟨o, []⟩ = ⟨[], none⟩ := by
  rw [readAll]

/-- Reading all tokens starts with reading one. -/
theorem readAll_cons (b : Bool) (o : Nat) (first : Char) (rest : Text) :
    readAll b ⟨o, first :: rest⟩ =
      match read b o first rest with
      | .error e => ⟨[], some e⟩
      | .ok (none, next) => readAll b next
      | .ok (some token, next) =>
        ⟨token :: (readAll (!token.isCombinator) next).tokens,
          (readAll (!token.isCombinator) next).failure⟩ := by
  rw [readAll]
  split
  · rename_i hnil
    cases hnil
  · rename_i hcons
    cases hcons
    split
    · rename_i hread
      rw [hread]
    · rename_i hread
      rw [hread]
    · rename_i hread
      rw [hread]

/-- Tokens are read from a text that holds them. -/
theorem readAll_of_lexes {b : Bool} {tokens : List Token} {t : Text} (h : Lexes b tokens t)
    (o : Nat) : readAll b ⟨o, t⟩ = ⟨tokens, none⟩ := by
  induction h generalizing o with
  | nil => exact readAll_nil _ o
  | @space b tokens g t nonempty spacing whole apart further ih =>
      obtain ⟨c, g, rfl⟩ := List.exists_cons_of_ne_nil nonempty
      have hrest : ∀ x ∈ g, Text.isSpace x = true := fun x hx => spacing x (by simp [hx])
      have hread : read b o c (g ++ t) = .ok (none, ⟨o + 1 + g.length, t⟩) := by
        simp [read, spacing c (by simp), Cursor.skipSpace, Cursor.skip_append hrest whole, apart]
      rw [List.cons_append, readAll_cons, hread]
      exact ih _
  | @descendant tokens g t nonempty spacing whole between further ih =>
      obtain ⟨c, g, rfl⟩ := List.exists_cons_of_ne_nil nonempty
      have hrest : ∀ x ∈ g, Text.isSpace x = true := fun x hx => spacing x (by simp [hx])
      have hread : read true o c (g ++ t) =
          .ok (some (combinator .descendant), ⟨o + 1 + g.length, t⟩) := by
        simp [read, spacing c (by simp), Cursor.skipSpace, Cursor.skip_append hrest whole, between]
      rw [List.cons_append, readAll_cons, hread]
      simp [isCombinator, ih]
  | @symbol b tokens x c t isSymbol further ih =>
      have hread : read b o x t = .ok (some (combinator c), ⟨o + 1, t⟩) := by
        simp [read, (Combinator.isNameChar_of_ofSymbol? isSymbol).1, isSymbol]
      rw [readAll_cons, hread]
      simp [isCombinator, ih]
  | @operand b token tokens w t word whole further ih =>
      obtain ⟨first, rest, o', hfirst, hread⟩ := word.read_eq_ok whole b o
      rw [hfirst, readAll_cons, hread]
      simp [word.isCombinator, ih]

/-- What one reading does: it passes a run of space, or it reads a symbol or an operand. -/
theorem read_cases {b : Bool} {o : Nat} {first : Char} {rest : Text} {result : Option Token}
    {next : Cursor} (h : read b o first rest = .ok (result, next)) :
    (∃ g, first :: rest = first :: g ++ next.rest ∧ Spacing (first :: g) ∧
      next.rest.Stops Text.isSpace ∧
      result = if b && startsOperand next.rest then some (combinator .descendant) else none) ∨
    (∃ c, Combinator.ofSymbol? first = some c ∧ next.rest = rest ∧
      result = some (combinator c)) ∨
    ∃ token w, first :: rest = w ++ next.rest ∧ token.Word w ∧
      (token.endsInName = true → next.rest.Stops isNameChar) ∧ result = some token := by
  simp only [read] at h
  split at h
  · rename_i hspace
    obtain ⟨hrest, hspacing, hwhole⟩ := Cursor.exists_run ⟨o + 1, rest⟩ Text.isSpace
    have hall : Spacing (first :: Cursor.run ⟨o + 1, rest⟩ Text.isSpace) := by
      rintro x hx
      rcases List.mem_cons.mp hx with rfl | hx
      · exact hspace
      · exact hspacing x hx
    refine .inl ⟨Cursor.run ⟨o + 1, rest⟩ Text.isSpace, ?_⟩
    split at h
    · rename_i hbetween
      cases h
      exact ⟨congrArg (first :: ·) hrest, hall, hwhole, (if_pos hbetween).symm⟩
    · rename_i happart
      cases h
      exact ⟨congrArg (first :: ·) hrest, hall, hwhole, (if_neg happart).symm⟩
  · split at h
    · rename_i c hsymbol
      cases h
      exact .inr (.inl ⟨c, hsymbol, rfl, rfl⟩)
    · refine .inr (.inr ?_)
      split at h
      · cases h
        exact ⟨_, _, rfl, .universal, by simp [endsInName], rfl⟩
      · obtain ⟨n, hn, rfl⟩ := Reading.map_eq_ok.mp h
        obtain ⟨hname, hrest, hstops⟩ := isName_of_readName hn
        exact ⟨_, _, congrArg (_ :: ·) hrest, .id hname, fun _ => hstops, rfl⟩
      · obtain ⟨n, hn, rfl⟩ := Reading.map_eq_ok.mp h
        obtain ⟨hname, hrest, hstops⟩ := isName_of_readName hn
        exact ⟨_, _, congrArg (_ :: ·) hrest, .className hname, fun _ => hstops, rfl⟩
      · obtain ⟨clause, hclause, rfl⟩ := Reading.map_eq_ok.mp h
        obtain ⟨body, hrest, hspelled⟩ := AttributeToken.Spelling.of_read hclause
        exact ⟨_, _, congrArg (_ :: ·) hrest, .bracketed hspelled, by simp [endsInName], rfl⟩
      · split at h
        · rename_i hstart
          obtain ⟨hrest, hchars, hstops⟩ := Cursor.exists_run ⟨o + 1, rest⟩ isNameChar
          cases h
          exact ⟨_, _, congrArg (first :: ·) hrest, .name hstart hchars, fun _ => hstops, rfl⟩
        · cases h

/-- A text from which tokens are read holds them. -/
theorem lexes_of_readAll {b : Bool} {o : Nat} {tokens : List Token} {t : Text}
    (h : readAll b ⟨o, t⟩ = ⟨tokens, none⟩) : Lexes b tokens t := by
  induction hlength : t.length using Nat.strongRecOn generalizing b o tokens t with
  | ind length ih =>
      cases t with
      | nil =>
          rw [readAll_nil] at h
          cases h
          exact .nil
      | cons first rest =>
          rw [readAll_cons] at h
          rw [List.length_cons] at hlength
          split at h
          · cases h
          · rename_i next hread
            have hshorter := length_rest_read_le hread
            have further : Lexes b tokens next.rest := ih _ (by omega) h rfl
            obtain ⟨g, hsplit, hspacing, hwhole, hresult⟩ | ⟨_, -, -, hresult⟩ |
              ⟨_, _, -, -, -, hresult⟩ := read_cases hread
            · have hnot : (b && startsOperand next.rest) = false := by
                cases hbetween : b && startsOperand next.rest with
                | false => rfl
                | true => simp [hbetween] at hresult
              rw [hsplit]
              exact .space (by simp) hspacing hwhole hnot further
            · cases hresult
            · cases hresult
          · rename_i token next hread
            have hshorter := length_rest_read_le hread
            obtain ⟨rfl, hfailure⟩ := Lexed.mk.inj h
            have further : Lexes (!token.isCombinator)
                (readAll (!token.isCombinator) next).tokens next.rest :=
              ih _ (by omega) (by rw [← hfailure]) rfl
            obtain ⟨g, hsplit, hspacing, hwhole, hresult⟩ | ⟨c, hsymbol, hrest, hresult⟩ |
              ⟨_, w, hsplit, hword, hwhole, hresult⟩ := read_cases hread
            · split at hresult
              · rename_i hbetween
                rw [Bool.and_eq_true] at hbetween
                obtain ⟨rfl, hbetween⟩ := hbetween
                cases hresult
                rw [hsplit]
                exact .descendant (by simp) hspacing hwhole hbetween further
              · cases hresult
            · cases hresult
              rw [← hrest]
              exact .symbol hsymbol further
            · cases hresult
              rw [hword.isCombinator] at further ⊢
              rw [hsplit]
              exact .operand hword hwhole further

/-- **Tokens are read without failure exactly from the texts that hold them**, wherever the text
stands. -/
theorem readAll_eq_iff {b : Bool} {o : Nat} {tokens : List Token} {t : Text} :
    readAll b ⟨o, t⟩ = ⟨tokens, none⟩ ↔ Lexes b tokens t :=
  ⟨lexes_of_readAll, fun h => readAll_of_lexes h o⟩

end Token

/-- A clause has no lexical error exactly if it holds tokens. -/
theorem tokenize_eq_ok_iff {tokens : List Token} {clause : Text} :
    tokenize clause = .ok tokens ↔ Lexes false tokens clause := by
  rw [← Token.readAll_eq_iff (o := 0)]
  unfold tokenize lex Cursor.start
  split
  · rename_i hread
    rw [hread]
    simp
  · rename_i hread
    rw [hread]
    simp

end TreeSelect
