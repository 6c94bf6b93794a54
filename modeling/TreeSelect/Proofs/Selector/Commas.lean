import TreeSelect.Proofs.Selector.Lexing
import TreeSelect.Proofs.Selector.Splitting
/-!
# Commas within selectors

Commas and brackets of a spelled selector stand in its bracketed clauses. The scan for separating
commas counts brackets without knowing tokens: an operator that holds an opening bracket leaves the
scan inside for the rest of the text, and then every comma from that clause on ends a clause. So
whether a spelling is one clause depends on its attribute clauses only, and not on how the selector
is spelled.

## Main definitions

* `Nesting.Raises`: a text through which the scan comes inside by some levels.
* `AttributeClause.Opens`, `AttributeClause.HoldsComma`, `Quiet`: what the operators and operands of
  attribute clauses hold.
* `ClausesIn`: the bracketed clauses of a text with plain text between them.

## Main statements

* `ClausesIn.firstEnd?_eq_none_iff`: a spelling is one clause exactly if its attributes are quiet.
* `ClausesIn.firstEnd?_append_comma`: a comma behind a quiet spelling ends it.
* `Selector.Spelling.clausesIn`: the clauses in a spelling are those of the selector.
-/

namespace TreeSelect

/-! ### Levels -/

namespace Nesting

/-- Outside quotes a text leads inside by `k` levels, and from inside it never reaches the top. -/
def Raises (k : Nat) (t : Text) : Prop :=
  ∀ d, after ⟨d, none⟩ t = ⟨d + k, none⟩ ∧ StaysInside ⟨d + 1, none⟩ t

/-- Whether a character changes nothing about the nesting. -/
def isFlat (c : Char) : Bool :=
  !isQuote c && c != '[' && c != ']'

/-- A flat character leaves the nesting as it is. -/
theorem step_of_isFlat {c : Char} (h : isFlat c = true) (d : Nat) :
    step ⟨d, none⟩ c = ⟨d, none⟩ := by
  simp only [isFlat, Bool.and_eq_true, Bool.not_eq_true', bne_iff_ne] at h
  simp [step, h.1.1, h.1.2, h.2]

/-- Inside a bracket the scan is not at the top. -/
@[simp] theorem isTop_succ (d : Nat) (q : Option Char) : isTop ⟨d + 1, q⟩ = false := by
  simp [isTop]

namespace Raises

variable {k l : Nat} {s t : Text}

/-- The levels of a join add up. -/
theorem append (hs : Raises k s) (ht : Raises l t) : Raises (k + l) (s ++ t) := by
  intro d
  obtain ⟨hafter, hinside⟩ := hs d
  have hlevel : d + 1 + k = d + k + 1 := by omega
  refine ⟨?_, staysInside_append.mpr ⟨hinside, ?_⟩⟩
  · rw [after_append, hafter, (ht (d + k)).1, Nat.add_assoc]
  · rw [(hs (d + 1)).1, hlevel]
    exact (ht (d + k)).2

/-- The empty text leads nowhere. -/
theorem nil : Raises 0 [] :=
  fun _ => ⟨rfl, trivial⟩

/-- A flat character leads nowhere. -/
theorem singleton {c : Char} (h : isFlat c = true) : Raises 0 [c] := by
  intro d
  refine ⟨by rw [after_cons, step_of_isFlat h]; rfl, ?_, trivial⟩
  rw [step_of_isFlat h, isTop_succ]

/-- A flat text leads nowhere. -/
theorem of_forall (h : ∀ c ∈ t, isFlat c = true) : Raises 0 t := by
  induction t with
  | nil => exact nil
  | cons c t ih => exact (singleton (h c (by simp))).append (ih fun d hd => h d (by simp [hd]))

/-- An operator leads inside by as many levels as it has opening brackets. -/
theorem of_operator {operator : Text} (h : ∀ c ∈ operator, isOperatorChar c = true) :
    Raises (operator.count '[') operator := by
  induction operator with
  | nil => exact nil
  | cons c operator ih =>
      have hrest := ih fun d hd => h d (by simp [hd])
      by_cases hc : c = '['
      · subst hc
        have hopen : Raises 1 ['['] := fun d => ⟨rfl, by simp [StaysInside, step, isQuote]⟩
        have hjoin := hopen.append hrest
        rw [Nat.add_comm] at hjoin
        simpa using hjoin
      · have hflat : isFlat c = true := by
          have hchar := h c (by simp)
          simp only [isOperatorChar, Bool.and_eq_true, Bool.not_eq_true', bne_iff_ne] at hchar
          simp [isFlat, hc, hchar.1.2, hchar.2]
        have hjoin := (singleton hflat).append hrest
        rw [Nat.zero_add] at hjoin
        simpa [List.count_cons, hc] using hjoin

/-- Within a quote nothing but the same quote counts. -/
theorem after_quoted {v : Text} {q : Char} (hv : q ∉ v) (d : Nat) :
    after ⟨d, some q⟩ v = ⟨d, some q⟩ ∧ StaysInside ⟨d, some q⟩ v := by
  induction v with
  | nil => exact ⟨rfl, trivial⟩
  | cons c v ih =>
      have hc : (c == q) = false := by
        rw [beq_eq_false_iff_ne]
        rintro rfl
        exact hv (by simp)
      have hstep : step ⟨d, some q⟩ c = ⟨d, some q⟩ := by simp [step, hc]
      obtain ⟨hafter, hinside⟩ := ih fun hmem => hv (by simp [hmem])
      refine ⟨by rw [after_cons, hstep, hafter], ?_, ?_⟩
      · rw [hstep]
        simp [isTop]
      · rwa [hstep]

/-- A quoted text leads nowhere. -/
theorem of_quoted {v : Text} {q : Char} (hq : isQuote q = true) (hv : q ∉ v) :
    Raises 0 (q :: (v ++ [q])) := by
  intro d
  have hopen : ∀ d, step ⟨d, none⟩ q = ⟨d, some q⟩ := fun d => by simp [step, hq]
  have hclose : ∀ d, step ⟨d, some q⟩ q = ⟨d, none⟩ := fun d => by simp [step]
  refine ⟨?_, ?_, staysInside_append.mpr ⟨?_, ?_, trivial⟩⟩
  · rw [after_cons, after_append, hopen, (after_quoted hv d).1, after_cons, hclose]
    rfl
  · rw [hopen]
    simp [isTop]
  · rw [hopen]
    exact (after_quoted hv (d + 1)).2
  · rw [hopen, (after_quoted hv (d + 1)).1, hclose]
    simp

/-- Brackets around a text take back the level that they add. -/
theorem of_bracketed (h : Raises k t) : Raises k ('[' :: (t ++ [']'])) := by
  intro d
  have hopen : ∀ d, step ⟨d, none⟩ '[' = ⟨d + 1, none⟩ := fun _ => rfl
  have hclose : ∀ d, step ⟨d + 1, none⟩ ']' = ⟨d, none⟩ := fun _ => rfl
  have hlevel : ∀ d, d + 1 + k = d + k + 1 := fun d => by omega
  refine ⟨?_, ?_, staysInside_append.mpr ⟨?_, ?_, trivial⟩⟩
  · rw [after_cons, after_append, hopen, (h (d + 1)).1, hlevel, after_cons, hclose]
    rfl
  · rw [hopen, isTop_succ]
  · rw [hopen]
    exact (h (d + 1)).2
  · rw [hopen, (h (d + 1 + 1)).1, hlevel, hlevel, hclose, isTop_succ]

/-- Brackets whose text leads inside never come back to the top. -/
theorem staysInside_bracketed (h : Raises (k + 1) t) :
    StaysInside {} ('[' :: (t ++ [']'])) := by
  refine ⟨rfl, staysInside_append.mpr ⟨(h 0).2, ?_, trivial⟩⟩
  have hafter : after (step {} '[') t = ⟨0 + 1 + (k + 1), none⟩ := (h 1).1
  rw [hafter]
  simp [step, isQuote, isTop]

/-- No comma in brackets stands at the top. -/
theorem commaAt?_bracketed (h : Raises k t) : Clause.commaAt? ('[' :: (t ++ [']'])) = none := by
  have hinside : Clause.commaFrom? ⟨1, none⟩ 1 t = none :=
    Clause.commaFrom?_of_staysInside (h 0).2 1
  have hrest : Clause.commaFrom? ⟨1, none⟩ 1 (t ++ [']']) = none := by
    rw [Clause.commaFrom?_append, hinside]
    simp [Clause.commaFrom?]
  exact hrest

end Raises

end Nesting

/-! ### Plain characters -/

/-- Whether a character is neither a quote nor a bracket nor a comma. -/
def isPlain (c : Char) : Bool :=
  Nesting.isFlat c && c != ','

/-- The characters of a class are plain if the class has none of the five others. -/
theorem isPlain_of_class {p : Char → Bool} {c : Char} (h : p c = true)
    (hfive : ['"', '\x27', '[', ']', ','].any p = false) : isPlain c = true := by
  have hne : ∀ d ∈ ['"', '\x27', '[', ']', ','], c ≠ d := by
    rintro d hd rfl
    exact List.any_eq_false.mp hfive c hd h
  simp only [List.forall_mem_cons] at hne
  obtain ⟨hdouble, hsingle, hopen, hclose, hcomma, -⟩ := hne
  simp [isPlain, Nesting.isFlat, isQuote, hdouble, hsingle, hopen, hclose, hcomma]

/-- Name characters are plain. -/
theorem isPlain_of_isNameChar {c : Char} (h : isNameChar c = true) : isPlain c = true :=
  isPlain_of_class h (by decide)

/-- Space is plain. -/
theorem isPlain_of_isSpace {c : Char} (h : Text.isSpace c = true) : isPlain c = true :=
  isPlain_of_class h (by decide)

/-- Blanks are plain. -/
theorem isPlain_of_isBlank {c : Char} (h : Text.isBlank c = true) : isPlain c = true :=
  isPlain_of_class h (by decide)

/-- Plain characters are flat. -/
theorem isFlat_of_isPlain {c : Char} (h : isPlain c = true) : Nesting.isFlat c = true := by
  rw [isPlain, Bool.and_eq_true] at h
  exact h.1

/-- A plain text holds no comma. -/
theorem comma_notMem {t : Text} (h : ∀ c ∈ t, isPlain c = true) : ',' ∉ t := by
  intro hmem
  cases h ',' hmem

/-! ### Bracketed clauses -/

namespace AttributeClause

/-- An operator with an opening bracket is asked for. -/
def Opens (clause : AttributeClause) : Prop :=
  ∃ operator operand, clause.test.operator? = some (operator, operand) ∧ '[' ∈ operator

/-- An operator or operand with a comma is asked for. -/
def HoldsComma (clause : AttributeClause) : Prop :=
  ∃ operator operand, clause.test.operator? = some (operator, operand) ∧
    (',' ∈ operator ∨ ',' ∈ operand)

end AttributeClause

/-- From the first clause on whose operator opens a bracket, none holds a comma. -/
def Quiet : List AttributeClause → Prop
  | [] => True
  | clause :: rest => (clause.Opens → ∀ other ∈ clause :: rest, ¬ other.HoldsComma) ∧ Quiet rest

/-- Clauses without a comma are quiet. -/
theorem quiet_of_forall {clauses : List AttributeClause}
    (h : ∀ clause ∈ clauses, ¬ clause.HoldsComma) : Quiet clauses := by
  induction clauses with
  | nil => trivial
  | cons clause rest ih => exact ⟨fun _ => h, ih fun other hother => h other (by simp [hother])⟩

/-- A spelled operand leads nowhere and holds the commas of the operand. -/
theorem OperandSpelling.raises {v x : Text} (h : OperandSpelling v x) :
    Nesting.Raises 0 x ∧ (',' ∈ x ↔ ',' ∈ v) := by
  have hspacing : ∀ g : Text, Spacing g → Nesting.Raises 0 g ∧ ',' ∉ g := fun g hg =>
    ⟨.of_forall fun c hc => isFlat_of_isPlain (isPlain_of_isSpace (hg c hc)),
      comma_notMem fun c hc => isPlain_of_isSpace (hg c hc)⟩
  cases h with
  | @quoted g₁ g₂ q before quote inside after =>
      have hq : q ≠ ',' := by
        rintro rfl
        cases quote
      have hquoted := Nesting.Raises.of_quoted quote inside
      have hjoin := (hspacing g₁ before).1.append (hquoted.append (hspacing g₂ after).1)
      refine ⟨by simpa using hjoin, ?_⟩
      simp [(hspacing g₁ before).2, (hspacing g₂ after).2, hq.symm]
  | @bare g blanks before nonempty inside first apart last after =>
      have hbare : ∀ c, isBareChar c = true → Nesting.isFlat c = true := by
        intro c hc
        simp only [isBareChar, Bool.and_eq_true, Bool.not_eq_true', bne_iff_ne] at hc
        simp [Nesting.isFlat, hc.1.1, hc.1.2, hc.2]
      have hv : Nesting.Raises 0 v := .of_forall fun c hc => hbare c (inside c hc)
      have hblanks : Nesting.Raises 0 blanks := .of_forall fun c hc =>
        isFlat_of_isPlain (isPlain_of_isBlank (after c hc))
      have hnot : ',' ∉ blanks := comma_notMem fun c hc => isPlain_of_isBlank (after c hc)
      refine ⟨(hspacing g before).1.append (hv.append hblanks), ?_⟩
      simp [(hspacing g before).2, hnot]

/-- A spelled clause is a text in brackets that leads inside exactly if its operator opens a
bracket, and it holds the commas of its operator and operand. -/
theorem AttributeToken.Spelling.exists_raises {token : AttributeToken} {a : Text}
    (h : token.Spelling a) :
    ∃ body k, a = '[' :: (body ++ [']']) ∧ Nesting.Raises k body ∧
      (token.clause.Opens ↔ k ≠ 0) ∧ (token.clause.HoldsComma ↔ ',' ∈ a) := by
  have hplain : ∀ g : Text, (∀ c ∈ g, isPlain c = true) → Nesting.Raises 0 g ∧ ',' ∉ g :=
    fun g hg => ⟨.of_forall fun c hc => isFlat_of_isPlain (hg c hc), comma_notMem hg⟩
  cases h with
  | @present name g₁ g₂ before isName after =>
      obtain ⟨hbefore, hbefore'⟩ := hplain g₁ fun c hc => isPlain_of_isSpace (before c hc)
      obtain ⟨hname, hname'⟩ := hplain name fun c hc => isPlain_of_isNameChar (isName.2 c hc)
      obtain ⟨hafter, hafter'⟩ := hplain g₂ fun c hc => isPlain_of_isSpace (after c hc)
      refine ⟨g₁ ++ (name ++ g₂), 0, by simp, hbefore.append (hname.append hafter), ?_, ?_⟩
      · simp [AttributeClause.Opens, clause, AttributeTest.operator?]
      · simp [AttributeClause.HoldsComma, clause, AttributeTest.operator?, hbefore', hname',
          hafter']
  | @condition name operator operand g₁ g₂ x before isName after nonempty isOperator spelled =>
      obtain ⟨hbefore, hbefore'⟩ := hplain g₁ fun c hc => isPlain_of_isSpace (before c hc)
      obtain ⟨hname, hname'⟩ := hplain name fun c hc => isPlain_of_isNameChar (isName.2 c hc)
      obtain ⟨hafter, hafter'⟩ := hplain g₂ fun c hc => isPlain_of_isSpace (after c hc)
      obtain ⟨hoperand, hcomma⟩ := spelled.raises
      have hoperator := Nesting.Raises.of_operator isOperator
      have hjoin := hbefore.append (hname.append (hafter.append (hoperator.append hoperand)))
      refine ⟨g₁ ++ (name ++ (g₂ ++ (operator ++ x))), operator.count '[', by simp,
        by simpa using hjoin, ?_, ?_⟩
      · simp [AttributeClause.Opens, clause, List.count_eq_zero]
      · simp [AttributeClause.HoldsComma, clause, hbefore', hname', hafter', hcomma]

/-! ### Clauses in a text -/

/-- The bracketed clauses of a text, with plain text before, between and behind them. -/
inductive ClausesIn : List AttributeClause → Text → Prop
  | nil : ClausesIn [] []
  | plain {clauses : List AttributeClause} {c : Char} {r : Text} (isPlain : isPlain c = true)
      (further : ClausesIn clauses r) : ClausesIn clauses (c :: r)
  | clause {clauses : List AttributeClause} {token : AttributeToken} {a r : Text}
      (spelled : token.Spelling a) (further : ClausesIn clauses r) :
      ClausesIn (token.clause :: clauses) (a ++ r)

namespace ClausesIn

variable {clauses more : List AttributeClause} {w r : Text}

/-- The clauses of a join are those of its parts. -/
theorem append (h : ClausesIn clauses w) (hr : ClausesIn more r) :
    ClausesIn (clauses ++ more) (w ++ r) := by
  induction h with
  | nil => exact hr
  | plain isPlain further ih => exact .plain isPlain ih
  | clause spelled further ih =>
      rw [List.append_assoc]
      exact .clause spelled ih

/-- Plain text has no clause. -/
theorem of_forall (h : ∀ c ∈ w, isPlain c = true) : ClausesIn [] w := by
  induction w with
  | nil => exact .nil
  | cons c w ih => exact .plain (h c (by simp)) (ih fun d hd => h d (by simp [hd]))

/-- The commas of a text are those of its clauses. -/
theorem comma_mem_iff (h : ClausesIn clauses w) :
    ',' ∈ w ↔ ∃ clause ∈ clauses, clause.HoldsComma := by
  induction h with
  | nil => simp
  | @plain clauses c r isPlain further ih =>
      have hc : ',' ≠ c := by
        rintro rfl
        cases isPlain
      simp [hc, ih]
  | clause spelled further ih =>
      obtain ⟨body, k, rfl, -, -, hcomma⟩ := spelled.exists_raises
      rw [List.mem_append, ih, ← hcomma]
      simp

/-- A text leads inside by some levels. -/
theorem exists_raises (h : ClausesIn clauses w) : ∃ k, Nesting.Raises k w := by
  induction h with
  | nil => exact ⟨0, .nil⟩
  | plain isPlain further ih =>
      obtain ⟨k, hk⟩ := ih
      exact ⟨0 + k, (Nesting.Raises.singleton (isFlat_of_isPlain isPlain)).append hk⟩
  | clause spelled further ih =>
      obtain ⟨k, hk⟩ := ih
      obtain ⟨body, l, rfl, hl, -⟩ := spelled.exists_raises
      exact ⟨l + k, hl.of_bracketed.append hk⟩

/-- The open end of a text starts at the first clause that opens a bracket, so it holds no comma
exactly if the clauses are quiet. -/
theorem exists_open_end (h : ClausesIn clauses w) :
    ∃ front back, w = front ++ back ∧ Clause.commaAt? front = none ∧
      Nesting.after {} front = {} ∧ Nesting.StaysInside {} back ∧
      (Quiet clauses ↔ ',' ∉ back) := by
  induction h with
  | nil => exact ⟨[], [], rfl, rfl, rfl, trivial, by simp [Quiet]⟩
  | @plain clauses c r isPlain further ih =>
      obtain ⟨front, back, rfl, hcomma, hfront, hback, hquiet⟩ := ih
      have hstep := Nesting.step_of_isFlat (isFlat_of_isPlain isPlain) 0
      have hc : (c == ',') = false := by
        rw [beq_eq_false_iff_ne]
        rintro rfl
        cases isPlain
      refine ⟨c :: front, back, rfl, ?_, ?_, hback, hquiet⟩
      · rw [Clause.commaAt?, Clause.commaFrom?]
        simpa [hc, hstep] using Clause.commaFrom?_eq_none 0 1 hcomma
      · rw [Nesting.after_cons, hstep, hfront]
  | @clause clauses token a r spelled further ih =>
      have hwhole := ClausesIn.clause spelled further
      obtain ⟨body, k, rfl, hbody, hopens, -⟩ := spelled.exists_raises
      have hafter := (hbody.of_bracketed 0).1
      cases k with
      | zero =>
          obtain ⟨front, back, rfl, hcomma, hfront, hback, hquiet⟩ := ih
          have htop : Nesting.after {} ('[' :: (body ++ [']'])) = {} := hafter
          refine ⟨'[' :: (body ++ [']']) ++ front, back, by simp, ?_, ?_, hback, ?_⟩
          · rw [Clause.commaAt?, Clause.commaFrom?_append, ← Clause.commaAt?,
              hbody.commaAt?_bracketed, Option.none_or, htop]
            exact Clause.commaFrom?_eq_none 0 _ hcomma
          · rw [Nesting.after_append, htop, hfront]
          · have hnot : ¬ token.clause.Opens := fun hopen => hopens.mp hopen rfl
            rw [Quiet, hquiet]
            simp [hnot]
      | succ k =>
          obtain ⟨l, hl⟩ := further.exists_raises
          refine ⟨[], '[' :: (body ++ [']']) ++ r, rfl, rfl, rfl,
            Nesting.staysInside_append.mpr ⟨hbody.staysInside_bracketed, ?_⟩, ?_⟩
          · have hdeep : Nesting.after {} ('[' :: (body ++ [']'])) = ⟨0 + (k + 1), none⟩ := hafter
            rw [hdeep, Nat.zero_add]
            exact (hl k).2
          · rw [hwhole.comma_mem_iff]
            constructor
            · rintro ⟨hfirst, -⟩ ⟨other, hother, hcomma⟩
              exact hfirst (hopens.mpr (Nat.succ_ne_zero k)) other hother hcomma
            · intro hnone
              exact quiet_of_forall fun other hother hcomma => hnone ⟨other, hother, hcomma⟩

/-- **A text is one clause exactly if its attribute clauses are quiet.** -/
theorem firstEnd?_eq_none_iff (h : ClausesIn clauses w) :
    Clause.firstEnd? w = none ↔ Quiet clauses := by
  obtain ⟨front, back, rfl, hcomma, hfront, hback, hquiet⟩ := h.exists_open_end
  rw [Clause.firstEnd?_eq_none_iff hfront hback, hquiet]
  simp [hcomma]

/-- A comma behind a quiet text ends it, whatever follows, as long as that leads inside only. -/
theorem firstEnd?_append_comma (h : ClausesIn clauses w) (hquiet : Quiet clauses) {k : Nat}
    (hr : Nesting.Raises k r) : Clause.firstEnd? (w ++ ',' :: r) = some w.length := by
  obtain ⟨l, hl⟩ := h.exists_raises
  obtain ⟨front, back, rfl, hcomma, hfront, hback, hiff⟩ := h.exists_open_end
  refine Clause.firstEnd?_append_comma hfront hcomma (hiff.mp hquiet) ?_
  by_cases hnil : back = []
  · exact .inl hnil
  · refine .inr (Nesting.staysInside_append.mpr ⟨hback, ?_⟩)
    -- behind the open end the scan is inside some brackets and outside quotes
    have hafter : Nesting.after {} back = ⟨0 + l, none⟩ := by
      have hwhole := (hl 0).1
      rw [Nesting.after_append] at hwhole
      exact hfront ▸ hwhole
    have hinside : Nesting.isTop ⟨0 + l, none⟩ = false := by
      obtain ⟨c, back, rfl⟩ := List.exists_cons_of_ne_nil hnil
      rw [← hafter]
      exact hback.2.isTop_after hback.1
    obtain ⟨m, hm⟩ : ∃ m, 0 + l = m + 1 := by
      cases l with
      | zero => cases hinside
      | succ m => exact ⟨m, by omega⟩
    have hcommaFlat : Nesting.Raises 0 [','] := .singleton (by decide)
    rw [hafter, hm]
    exact ((hcommaFlat.append hr) m).2

end ClausesIn

/-! ### Spellings -/

/-- The attribute clauses of a chain from left to right. -/
def Selector.clauses (s : Selector) : List AttributeClause :=
  s.simples.flatMap (·.attributes)

/-- The spelling of a type has no clause. -/
theorem TypeSpelling.clausesIn {tag : Option TypeSelector} {w : Text} (h : TypeSpelling tag w) :
    ClausesIn [] w := by
  cases h with
  | absent => exact .nil
  | universal => exact .plain (by decide) .nil
  | named start further =>
      exact .plain (isPlain_of_isNameChar (isNameChar_of_isNameStart start))
        (.of_forall fun x hx => isPlain_of_isNameChar (further x hx))

/-- The spelling of an id and classes has no clause. -/
theorem MarksSpelling.clausesIn {id : Option Text} {classes : List Text} {w : Text}
    (h : MarksSpelling id classes w) : ClausesIn [] w := by
  have hname : ∀ {n r : Text}, IsName n → ClausesIn [] r → ClausesIn [] (n ++ r) := fun hn hr =>
    (ClausesIn.of_forall fun x hx => isPlain_of_isNameChar (hn.2 x hx)).append hr
  induction h with
  | nil => exact .nil
  | id isName further ih => exact .plain (by decide) (hname isName ih)
  | className isName further ih => exact .plain (by decide) (hname isName ih)

/-- The clauses of attributes are the attributes. -/
theorem AttributesSpelling.clausesIn {clauses : List AttributeClause} {w : Text}
    (h : AttributesSpelling clauses w) : ClausesIn clauses w := by
  induction h with
  | nil => exact .nil
  | cons spelled further ih =>
      obtain ⟨token, rfl, hspelled⟩ := AttributeClause.spelling_iff.mp spelled
      exact .clause hspelled ih

/-- The clauses of a simple selector are its attributes. -/
theorem Simple.Spelling.clausesIn {s : Simple} {w : Text} (h : s.Spelling w) :
    ClausesIn s.attributes w := by
  obtain ⟨-, type, marks, attributes, rfl, htype, hmarks, hattributes⟩ := h
  exact htype.clausesIn.append (hmarks.clausesIn.append hattributes.clausesIn)

/-- Space has no clause. -/
theorem Spacing.clausesIn {g : Text} (h : Spacing g) : ClausesIn [] g :=
  .of_forall fun c hc => isPlain_of_isSpace (h c hc)

/-- The spelling of a combinator has no clause. -/
theorem Combinator.Spelling.clausesIn {c : Combinator} {between : Text}
    (h : c.Spelling between) : ClausesIn [] between := by
  cases h with
  | descendant nonempty spacing => exact Spacing.clausesIn spacing
  | symbol isSymbol before after =>
      refine (Spacing.clausesIn before).append (.plain ?_ (Spacing.clausesIn after))
      cases isSymbol <;> decide

/-- The clauses of what follows a head are those of its simple selectors. -/
theorem ChainSpelling.clausesIn {rest : List (Combinator × Simple)} {r : Text}
    (h : ChainSpelling rest r) : ClausesIn ((rest.map Prod.snd).flatMap (·.attributes)) r := by
  induction h with
  | nil => exact .nil
  | cons separated spelled further ih =>
      exact separated.clausesIn.append (spelled.clausesIn.append ih)

/-- The clauses of a selector are those of its simple selectors. -/
theorem Selector.Spelling.clausesIn {s : Selector} {t : Text} (h : s.Spelling t) :
    ClausesIn s.clauses t := by
  obtain ⟨before, head, rest, after, rfl, hbefore, hhead, hrest, hafter⟩ := h
  have hjoin := (Spacing.clausesIn hbefore).append
    (hhead.clausesIn.append (hrest.clausesIn.append (Spacing.clausesIn hafter)))
  simpa [Selector.clauses, Selector.simples] using hjoin

end TreeSelect
