import TreeSelect.Proofs.Selector.Grammar
import TreeSelect.Proofs.Selector.Runs
/-!
# Reading bracketed clauses

A bracketed clause is read in one direction and without a choice: each of its parts ends where a
run of characters ends, and the grammar lets no part start with a character that could belong to
the part before it. So a clause is read exactly from its spellings, whatever follows.

## Main statements

* `OperandSpelling.read_eq_ok`, `OperandSpelling.of_read`: operands.
* `AttributeToken.Spelling.read_eq_ok`, `AttributeToken.Spelling.of_read`: bracketed clauses.
* `AttributeClause.spelling_iff`: what a bracketed clause asks, by its token.
-/

namespace TreeSelect

/-! ### Kinds of characters -/

/-- Space is a quote, a bracket or a part of an operator nowhere. -/
theorem isSpace_ne {c : Char} (h : Text.isSpace c = true) :
    isQuote c = false ∧ isOperatorChar c = false ∧ c ≠ ']' := by
  simp only [Text.isSpace, Bool.or_eq_true, beq_iff_eq] at h
  rcases h with (((rfl | rfl) | rfl) | rfl) | rfl <;> decide

/-- A blank may stand in an operand without quotes. -/
theorem isBareChar_of_isBlank {c : Char} (h : Text.isBlank c = true) : isBareChar c = true := by
  simp only [isBareChar, isQuote, Bool.and_eq_true, Bool.not_eq_true', Bool.or_eq_false_iff,
    bne_iff_ne, beq_eq_false_iff_ne]
  refine ⟨⟨?_, ?_⟩, ?_, ?_⟩
  all_goals
    rintro rfl
    revert h
    decide

/-- What may stand in an operand but is neither space nor part of an operator is a name
character. -/
theorem isNameChar_of_isBareChar {c : Char} (h : isBareChar c = true)
    (hspace : Text.isSpace c = false) (hoperator : isOperatorChar c = false) :
    isNameChar c = true := by
  simp only [isBareChar, Bool.and_eq_true, Bool.not_eq_true', bne_iff_ne] at h
  simpa [isOperatorChar, hspace, h.1.1, h.2] using hoperator

/-- A name ends before space. -/
theorem stops_isNameChar_of_spacing {g : Text} (hg : Spacing g) : g.Stops isNameChar :=
  .of_forall fun c hc => isNameChar_eq_false_of_isSpace (hg c hc)

/-! ### Operands -/

/-- No operator goes on into an operand. -/
theorem OperandSpelling.stops {v x : Text} (h : OperandSpelling v x) (rest : Text) :
    (x ++ rest).Stops isOperatorChar := by
  have hspacing : ∀ g : Text, Spacing g → g.Stops isOperatorChar := fun g hg =>
    .of_forall fun c hc => (isSpace_ne (hg c hc)).2.1
  cases h with
  | quoted before quote inside after =>
      rw [List.append_assoc]
      exact (hspacing _ before).append (.cons (by simp [isOperatorChar, quote]))
  | @bare g blanks before nonempty inside first apart last after =>
      rw [List.append_assoc, List.append_assoc]
      cases g with
      | nil =>
          rw [List.nil_append]
          refine Text.Stops.append_of_ne_nil (fun c hc => ?_) nonempty
          simp [isOperatorChar, apart rfl c hc]
      | cons c g => exact .cons (isSpace_ne (before c (by simp))).2.1

/-- An operand is read from its spellings. -/
theorem OperandSpelling.read_eq_ok {v x : Text} (h : OperandSpelling v x) (opening o : Nat)
    (rest : Text) :
    ∃ o', readOperand opening (Cursor.skipSpace ⟨o, x ++ ']' :: rest⟩) = .ok (v, ⟨o', rest⟩) := by
  cases h with
  | @quoted g₁ g₂ q before quote inside after =>
      have hq : Text.isSpace q = false := by
        cases hspace : Text.isSpace q with
        | false => rfl
        | true => rw [(isSpace_ne hspace).1] at quote; cases quote
      have hpass : ∀ c ∈ v, (c != q) = true := by
        intro c hc
        rw [bne_iff_ne]
        rintro rfl
        exact inside hc
      have hstop : Text.Stops (· != q) (q :: (g₂ ++ ']' :: rest)) := .cons (by simp)
      have hbracket : Text.Stops Text.isSpace (']' :: rest) := .cons (by decide)
      rw [List.append_assoc, List.cons_append, Cursor.skipSpace,
        Cursor.skip_append before (.cons hq)]
      simp only [readOperand, List.cons_append, List.append_assoc, quote, if_true, readQuoted,
        Cursor.run_append hpass hstop, Cursor.skip_append hpass hstop, Cursor.skipSpace,
        Cursor.skip_append after hbracket, readClosing,
        Reading.map]
      exact ⟨_, rfl⟩
  | @bare g blanks before nonempty inside first apart last after =>
      obtain ⟨c, v, rfl⟩ := List.exists_cons_of_ne_nil nonempty
      have hc : isQuote c = false := by
        have hbare := inside c (by simp)
        simp only [isBareChar, Bool.and_eq_true, Bool.not_eq_true'] at hbare
        exact hbare.2
      have hpass : ∀ d ∈ c :: v ++ blanks, isBareChar d = true := by
        intro d hd
        rcases List.mem_append.mp hd with hd | hd
        · exact inside d hd
        · exact isBareChar_of_isBlank (after d hd)
      have hstop : Text.Stops isBareChar (']' :: rest) := .cons (by decide)
      have hspace : Text.Stops Text.isSpace (c :: v ++ blanks ++ ']' :: rest) :=
        .cons (first c rfl)
      have hfirst : readOperand opening ⟨o + g.length, c :: v ++ blanks ++ ']' :: rest⟩ =
          readBare opening ⟨o + g.length, c :: v ++ blanks ++ ']' :: rest⟩ := by
        simp [readOperand, hc]
      rw [List.append_assoc, Cursor.skipSpace, Cursor.skip_append before hspace, hfirst]
      simp only [readBare, Cursor.run_append hpass hstop, Cursor.skip_append hpass hstop,
        Text.trimEnd_append last after, List.isEmpty_cons, Bool.false_eq_true, if_false]
      exact ⟨_, rfl⟩

/-- A quoted operand is read up to the next quote of the same kind. -/
theorem exists_of_readQuoted {q : Char} {opening : Nat} {c next : Cursor} {v : Text}
    (h : readQuoted q opening c = .ok (v, next)) : c.rest = v ++ q :: next.rest ∧ q ∉ v := by
  obtain ⟨hrest, hrun, hbehind⟩ := c.exists_run (· != q)
  simp only [readQuoted] at h
  split at h
  · cases h
  · rename_i d rest hd
    cases h
    rw [hd] at hrest hbehind
    have hclosing : d = q := by simpa using hbehind.of_cons
    refine ⟨by rw [hrest, hclosing], fun hmem => ?_⟩
    simpa using hrun q hmem

/-- Only a closing bracket is read as one. -/
theorem rest_of_readClosing {opening : Nat} {c next : Cursor} {u : Unit}
    (h : readClosing opening c = .ok (u, next)) : c.rest = ']' :: next.rest := by
  simp only [readClosing] at h
  split at h
  · cases h
  · rename_i rest hrest
    cases h
    exact hrest
  · cases h

/-- An operand without quotes is read up to the closing bracket, less the blanks before it. -/
theorem exists_of_readBare {opening : Nat} {c next : Cursor} {v : Text}
    (h : readBare opening c = .ok (v, next)) :
    ∃ blanks, c.rest = v ++ blanks ++ ']' :: next.rest ∧ v ≠ [] ∧
      (∀ x ∈ v, isBareChar x = true) ∧ (∀ x ∈ v.getLast?, Text.isBlank x = false) ∧
        ∀ x ∈ blanks, Text.isBlank x = true := by
  obtain ⟨hrest, hrun, -⟩ := c.exists_run isBareChar
  obtain ⟨blanks, hsplit, hlast, hafter⟩ := Text.exists_trimEnd (c.run isBareChar)
  simp only [readBare] at h
  split at h
  · cases h
  · rename_i rest hbracket
    split at h
    · cases h
    · rename_i hnonempty
      cases h
      refine ⟨blanks, ?_, by simpa using hnonempty, fun x hx => hrun x ?_, hlast, hafter⟩
      · rw [hrest, hbracket, ← hsplit]
      · rw [hsplit]
        exact List.mem_append_left _ hx
  · cases h

/-- What is read as an operand behind an operator is a spelling of it. -/
theorem OperandSpelling.of_read {opening : Nat} {c next : Cursor} {v : Text}
    (hstops : c.rest.Stops isOperatorChar)
    (h : readOperand opening c.skipSpace = .ok (v, next)) :
    ∃ x, c.rest = x ++ ']' :: next.rest ∧ OperandSpelling v x := by
  obtain ⟨hrest, hspacing, hbehind⟩ := c.exists_space
  generalize c.run Text.isSpace = g at hrest hspacing
  generalize c.skipSpace = atOperand at h hrest hbehind
  rw [hrest] at hstops ⊢
  simp only [readOperand] at h
  split at h
  · cases h
  · rename_i first further hfirst
    split at h
    · rename_i hquote
      split at h
      · cases h
      · rename_i operand behind hquoted
        obtain ⟨⟨⟩, hclosing, rfl⟩ := Reading.map_eq_ok.mp h
        obtain ⟨hsplit, hinside⟩ := exists_of_readQuoted hquoted
        obtain ⟨hspace, hafter, -⟩ := behind.exists_space
        refine ⟨g ++ first :: (operand ++ first :: behind.run Text.isSpace), ?_,
          .quoted hspacing hquote hinside hafter⟩
        have hbracket := rest_of_readClosing hclosing
        change further = _ at hsplit
        rw [hfirst, hsplit, hspace, hbracket]
        simp
    · rename_i hquote
      obtain ⟨blanks, hsplit, hnonempty, hinside, hlast, hafter⟩ := exists_of_readBare h
      refine ⟨g ++ (v ++ blanks), by simp [hsplit], ?_⟩
      obtain ⟨d, v, rfl⟩ := List.exists_cons_of_ne_nil hnonempty
      have hspace : Text.isSpace d = false := by
        rw [hsplit] at hbehind
        exact hbehind.of_append.of_append.of_cons
      refine .bare hspacing hnonempty hinside (fun x hx => ?_) (fun hg x hx => ?_) hlast hafter
      · cases hx
        exact hspace
      · cases hx
        rw [hg, List.nil_append, hsplit] at hstops
        exact isNameChar_of_isBareChar (hinside d (by simp)) hspace
          hstops.of_append.of_append.of_cons

/-! ### Clauses -/

namespace AttributeToken

/-- Space ends before a name. -/
theorem stops_isSpace_of_isName {name r : Text} (hname : IsName name) :
    Text.Stops Text.isSpace (name ++ r) := by
  refine .append_of_ne_nil (.of_forall fun c hc => ?_) hname.1
  cases hspace : Text.isSpace c with
  | false => rfl
  | true =>
      have hchar := hname.2 c hc
      rw [isNameChar_eq_false_of_isSpace hspace] at hchar
      cases hchar

/-- A character of an operator is neither space nor part of a name, nor a closing bracket. -/
theorem isOperatorChar_ne {c : Char} (h : isOperatorChar c = true) :
    Text.isSpace c = false ∧ isNameChar c = false ∧ c ≠ ']' := by
  simp only [isOperatorChar, Bool.and_eq_true, Bool.not_eq_true', bne_iff_ne] at h
  exact ⟨h.1.1.1, h.1.1.2, h.2⟩

/-- A bracketed clause is read from its spellings, whatever follows. -/
theorem Spelling.read_eq_ok {token : AttributeToken} {body : Text}
    (h : token.Spelling ('[' :: body)) (opening o : Nat) (rest : Text) :
    ∃ o', read opening ⟨o, body ++ rest⟩ = .ok (token, ⟨o', rest⟩) := by
  cases h with
  | @present name g₁ g₂ before isName after =>
      have hclosing : Text.Stops isNameChar (']' :: rest) := .cons (by decide)
      have hbracket : Text.Stops Text.isSpace (']' :: rest) := .cons (by decide)
      have hends := (stops_isNameChar_of_spacing after).append hclosing
      simp only [List.append_assoc, List.singleton_append, read, Cursor.skipSpace,
        Cursor.skip_append before (stops_isSpace_of_isName isName),
        Cursor.run_append isName.2 hends, Cursor.skip_append isName.2 hends,
        Cursor.skip_append after hbracket, List.isEmpty_eq_false_iff.mpr isName.1]
      exact ⟨_, rfl⟩
  | @condition name operator operand g₁ g₂ x before isName after nonempty isOperator spelled =>
      obtain ⟨d, operator, rfl⟩ := List.exists_cons_of_ne_nil nonempty
      have hd := isOperatorChar_ne (isOperator d (by simp))
      have hname : Text.Stops isNameChar (d :: operator ++ (x ++ ']' :: rest)) := .cons hd.2.1
      have hspace : Text.Stops Text.isSpace (d :: operator ++ (x ++ ']' :: rest)) := .cons hd.1
      have hends := (stops_isNameChar_of_spacing after).append hname
      obtain ⟨o', hoperand⟩ := spelled.read_eq_ok opening
        (o + g₁.length + name.length + g₂.length + (d :: operator).length) rest
      refine ⟨o', ?_⟩
      simp only [List.append_assoc, List.singleton_append, read, Cursor.skipSpace,
        Cursor.skip_append before (stops_isSpace_of_isName isName),
        Cursor.run_append isName.2 hends, Cursor.skip_append isName.2 hends,
        Cursor.skip_append after hspace, List.isEmpty_eq_false_iff.mpr isName.1,
        Cursor.run_append isOperator (spelled.stops _),
        Cursor.skip_append isOperator (spelled.stops _)]
      simp only [Cursor.skipSpace] at hoperand
      rw [if_neg Bool.false_ne_true, hoperand]
      split
      · rename_i hnil
        cases hnil
      · rename_i hclosing
        exact absurd (List.cons.inj hclosing).1 hd.2.2
      · rfl

/-- What is read as a bracketed clause is a spelling of it. -/
theorem Spelling.of_read {token : AttributeToken} {opening : Nat} {c next : Cursor}
    (h : read opening c = .ok (token, next)) :
    ∃ body, c.rest = body ++ next.rest ∧ token.Spelling ('[' :: body) := by
  obtain ⟨hstart, hbefore, -⟩ := c.exists_space
  obtain ⟨hname, hchars, -⟩ := c.skipSpace.exists_run isNameChar
  obtain ⟨hspace, hafter, -⟩ := (c.skipSpace.skip isNameChar).exists_space
  rw [hname, hspace] at hstart
  simp only [read] at h
  generalize c.run Text.isSpace = g₁ at hstart hbefore
  generalize (c.skipSpace.skip isNameChar).run Text.isSpace = g₂ at hstart hafter
  generalize (c.skipSpace.skip isNameChar).skipSpace = behindName at h hstart
  split at h
  · split at h <;> cases h
  · rename_i hnonempty
    have hisName : IsName (c.skipSpace.run isNameChar) := ⟨by simpa using hnonempty, hchars⟩
    split at h
    · cases h
    · rename_i rest hclosing
      cases h
      refine ⟨_, ?_, .present hbefore hisName hafter⟩
      rw [hstart, hclosing]
      simp
    · rename_i found rest _ hfound
      obtain ⟨hoperator, hisOperator, hstops⟩ := behindName.exists_run isOperatorChar
      split at h
      · cases h
      · rename_i hsome
        obtain ⟨operand, hoperand, rfl⟩ := Reading.map_eq_ok.mp h
        obtain ⟨x, hx, hspelled⟩ := OperandSpelling.of_read hstops hoperand
        refine ⟨_, ?_, .condition hbefore hisName hafter (by simpa using hsome) hisOperator
          hspelled⟩
        rw [hstart, hoperator, hx]
        simp

end AttributeToken

/-- The spellings of a clause are those of the tokens that stand for it. -/
theorem AttributeClause.spelling_iff {clause : AttributeClause} {w : Text} :
    clause.Spelling w ↔ ∃ token : AttributeToken, token.clause = clause ∧ token.Spelling w := by
  constructor
  · rintro (spelled | spelled)
    · exact ⟨_, rfl, spelled⟩
    · exact ⟨_, rfl, spelled⟩
  · rintro ⟨⟨name, _ | ⟨operator, operand⟩⟩, rfl, spelled⟩
    · exact .present spelled
    · exact .condition spelled

end TreeSelect
