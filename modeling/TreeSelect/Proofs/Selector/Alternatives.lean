import TreeSelect.Proofs.Selector.Commas
import TreeSelect.Proofs.Selector.Parsing
/-!
# Alternatives are read apart

The scan for separating commas and the reading of a clause do not know of each other. Where the
scan is right about what the reader sees, clauses do not disturb one another: two texts that are
read without a rejected clause can be joined, and a clause that cannot be read takes nothing from
the text behind it.

A text that could be read is some quiet clauses with commas between them, and it comes apart where
it was joined. So two such texts that are joined by a comma come apart into the clauses of the one
and those of the other, even where an operator left the scan inside for the rest of its text.

The scan goes wrong in two ways. It takes an opening bracket in an operator for one that must be
closed, and it takes the first quote behind a quote that is left open for the end of a quotation.
Where that quotation stood in no open bracket, its end leads the scan back to the top level, and
the comma between the two texts has been passed over.

## Main definitions

* `Clause.Joins`: some quiet clauses joined by commas.
* `Clause.StaysOpen`: where one text leaves a quote open, the scan does not come back to the top
  level in the next.

## Main statements

* `Clause.Joins.pieces_eq`: joined clauses come apart again.
* `Clause.Joins.pieces_append`: a join of joins has the pieces of both.
* `SelectorList.parse_append`: the selectors of joined texts are those of both.
* `SelectorList.read_eq_singleton_iff_quiet`: when a clause that can be read is read as one clause.
* `SelectorList.parse_append_of_malformed`: when a malformed clause comes off as it stands.
-/

namespace TreeSelect

/-! ### Clauses joined by commas -/

namespace Clause

/-- A text is some clauses joined by commas: each has bracketed clauses in it with plain text
between them, and they are quiet. -/
inductive Joins : List Text → Text → Prop
  /-- One clause. -/
  | single {clauses : List AttributeClause} {u : Text} (inside : ClausesIn clauses u)
      (quiet : Quiet clauses) : Joins [u] u
  /-- A clause, a comma and further clauses. -/
  | cons {clauses : List AttributeClause} {u r : Text} {us : List Text}
      (inside : ClausesIn clauses u) (quiet : Quiet clauses) (further : Joins us r) :
      Joins (u :: us) (u ++ ',' :: r)

namespace Joins

variable {us vs : List Text} {t r : Text}

/-- Joined clauses lead inside only. -/
theorem exists_raises (h : Joins us t) : ∃ k, Nesting.Raises k t := by
  induction h with
  | single inside quiet => exact inside.exists_raises
  | cons inside quiet further ih =>
      obtain ⟨k, hk⟩ := inside.exists_raises
      obtain ⟨l, hl⟩ := ih
      have hcomma : Nesting.Raises 0 [','] := .singleton (by decide)
      exact ⟨k + (0 + l), hk.append (hcomma.append hl)⟩

/-- **Joined clauses come apart again**, each trimmed. -/
theorem pieces_eq (h : Joins us t) : pieces t = us.map Text.trim := by
  induction h with
  | single inside quiet =>
      exact pieces_of_firstEnd?_eq_none (inside.firstEnd?_eq_none_iff.mpr quiet)
  | cons inside quiet further ih =>
      obtain ⟨k, hk⟩ := further.exists_raises
      rw [pieces_append_comma (inside.firstEnd?_append_comma quiet hk), ih, List.map_cons]

/-- Joins are joined by a comma. -/
theorem append (ht : Joins us t) (hr : Joins vs r) : Joins (us ++ vs) (t ++ ',' :: r) := by
  induction ht with
  | single inside quiet => exact .cons inside quiet hr
  | cons inside quiet further ih =>
      rw [List.append_assoc]
      exact .cons inside quiet ih

/-- A blank before a join belongs to its first clause. -/
theorem exists_blank (h : Joins us t) :
    ∃ vs, Joins vs (' ' :: t) ∧ vs.map Text.trim = us.map Text.trim := by
  have hblank : isPlain ' ' = true := by decide
  have htrim : ∀ u : Text, Text.trim (' ' :: u) = Text.trim u :=
    Text.trim_cons_of_isBlank (by decide)
  cases h with
  | single inside quiet => exact ⟨_, .single (.plain hblank inside) quiet, by simp [htrim]⟩
  | cons inside quiet further =>
      exact ⟨_, .cons (.plain hblank inside) quiet further, by simp [htrim]⟩

/-- A blank before a join changes nothing about its pieces. -/
theorem pieces_blank (h : Joins us t) : pieces (' ' :: t) = pieces t := by
  obtain ⟨vs, hvs, htrim⟩ := h.exists_blank
  rw [hvs.pieces_eq, htrim, h.pieces_eq]

/-- **Two joins with a comma and a blank between them have the pieces of both.** -/
theorem pieces_append (ht : Joins us t) (hr : Joins vs r) :
    pieces (t ++ [',', ' '] ++ r) = pieces t ++ pieces r := by
  obtain ⟨ws, hws, htrim⟩ := hr.exists_blank
  have hjoin : t ++ [',', ' '] ++ r = t ++ ',' :: ' ' :: r := by simp
  rw [hjoin, (ht.append hws).pieces_eq, List.map_append, htrim, ht.pieces_eq, hr.pieces_eq]

end Joins

end Clause

/-! ### Reading clause by clause -/

namespace SelectorList

/-- Clauses are read one by one, so two lists of them are read one after the other. -/
theorem readClauses_append (first second : List Text) :
    readClauses (first ++ second) =
      ⟨(readClauses first).selectors ++ (readClauses second).selectors,
        (readClauses first).rejected ++ (readClauses second).rejected⟩ := by
  induction first with
  | nil => rfl
  | cons clause first ih =>
      rw [List.cons_append, readClauses, readClauses, ih]
      cases Selector.parse clause with
      | ok s => rfl
      | error e => rfl

/-- A clause is read as a selector, or it is rejected. -/
theorem length_readClauses (clauses : List Text) :
    (readClauses clauses).selectors.length + (readClauses clauses).rejected.length =
      clauses.length := by
  induction clauses with
  | nil => rfl
  | cons clause clauses ih =>
      rw [readClauses, List.length_cons, ← ih]
      cases Selector.parse clause with
      | ok s => exact Nat.add_right_comm _ 1 _
      | error e => rfl

/-- Nothing is rejected exactly if every clause is read. -/
theorem rejected_readClauses_eq_nil_iff {clauses : List Text} :
    (readClauses clauses).rejected = [] ↔
      ∀ clause ∈ clauses, ∃ s, Selector.parse clause = .ok s := by
  induction clauses with
  | nil => simp [readClauses]
  | cons clause clauses ih =>
      rw [readClauses, List.forall_mem_cons, ← ih]
      cases Selector.parse clause with
      | ok s => simp
      | error e => simp

/-- A clause that cannot be read adds no selector. -/
theorem selectors_readClauses_cons {clause : Text} {clauses : List Text}
    (h : ∀ s, Selector.parse clause ≠ .ok s) :
    (readClauses (clause :: clauses)).selectors = (readClauses clauses).selectors := by
  rw [readClauses]
  cases hread : Selector.parse clause with
  | ok s => exact absurd hread (h s)
  | error e => rfl

end SelectorList

/-- The empty clause is not read. -/
theorem Selector.parse_nil_ne (s : Selector) : parse [] ≠ .ok s := by
  intro h
  obtain ⟨before, head, rest, after, hsplit, -, hhead, -, -⟩ := spelling_of_parse h
  simp only [List.nil_eq, List.append_eq_nil_iff] at hsplit
  exact hhead.1 hsplit.2.1

/-- A text whose trimmed form is read has the clauses of the selector in it: the blanks that were
trimmed off hold none. -/
theorem Selector.clausesIn_of_parse_trim {u : Text} {s : Selector}
    (h : parse u.trim = .ok s) : ClausesIn s.clauses u := by
  obtain ⟨before, after, hsplit, hbefore, hafter, -, -⟩ := Text.exists_trim u
  have hplain : ∀ g : Text, (∀ c ∈ g, Text.isBlank c = true) → ClausesIn [] g := fun g hg =>
    .of_forall fun c hc => isPlain_of_isBlank (hg c hc)
  have hwhole := (hplain before hbefore).append
    ((spelling_of_parse h).clausesIn.append (hplain after hafter))
  rwa [← hsplit, List.nil_append, List.append_nil] at hwhole

/-! ### Texts of which nothing is rejected -/

namespace Clause

/-- A blank text is a join of one clause, which is empty. -/
theorem joins_of_blank {t : Text} (h : t.trim = []) : Joins [t] t :=
  .single (.of_forall fun c hc => isPlain_of_isBlank (Text.trim_eq_nil_iff.mp h c hc)) trivial

/-- A text all of whose pieces are read is a join. -/
theorem exists_joins_of_forall {t : Text}
    (h : ∀ clause ∈ pieces t, ∃ s, Selector.parse clause = .ok s) : ∃ us, Joins us t := by
  induction t using pieces_induction with
  | single t hend =>
      rw [pieces_of_firstEnd?_eq_none hend] at h
      obtain ⟨s, hs⟩ := h t.trim (by simp)
      have hclauses := Selector.clausesIn_of_parse_trim hs
      exact ⟨_, .single hclauses (hclauses.firstEnd?_eq_none_iff.mp hend)⟩
  | cons u r hu hend ih =>
      rw [pieces_append_comma hend, List.forall_mem_cons] at h
      obtain ⟨⟨s, hs⟩, hrest⟩ := h
      have hclauses := Selector.clausesIn_of_parse_trim hs
      obtain ⟨us, hus⟩ := ih hrest
      exact ⟨_, .cons hclauses (hclauses.firstEnd?_eq_none_iff.mp hu) hus⟩

end Clause

namespace SelectorList

/-- The selectors of a text are those of its pieces; the one piece of a blank text is no
selector. -/
theorem parse_eq_selectors_pieces (t : Text) :
    parse t = (readClauses (Clause.pieces t)).selectors := by
  by_cases hblank : t.trim = []
  · have hsplit : Clause.split t = [] := by
      rw [Clause.split, if_pos (List.all_eq_true.mpr (Text.trim_eq_nil_iff.mp hblank))]
    rw [parse, read, hsplit, (Clause.joins_of_blank hblank).pieces_eq, List.map_singleton,
      hblank, selectors_readClauses_cons Selector.parse_nil_ne]
  · rw [parse, read, Clause.split_eq_pieces hblank]

/-- A text of which nothing is rejected is a join. -/
theorem exists_joins_of_rejected {t : Text} (h : (read t).rejected = []) :
    ∃ us, Clause.Joins us t := by
  by_cases hblank : t.trim = []
  · exact ⟨_, Clause.joins_of_blank hblank⟩
  · rw [read, Clause.split_eq_pieces hblank] at h
    exact Clause.exists_joins_of_forall (rejected_readClauses_eq_nil_iff.mp h)

/-- **Joined texts are read as both**, if nothing is rejected of either. -/
theorem parse_append {a b : Text} (ha : (read a).rejected = []) (hb : (read b).rejected = []) :
    parse (a ++ [',', ' '] ++ b) = parse a ++ parse b := by
  obtain ⟨us, hus⟩ := exists_joins_of_rejected ha
  obtain ⟨vs, hvs⟩ := exists_joins_of_rejected hb
  rw [parse_eq_selectors_pieces, hus.pieces_append hvs, readClauses_append,
    ← parse_eq_selectors_pieces, ← parse_eq_selectors_pieces]

/-! ### Clauses that are read -/

/-- **When a clause is read as one clause.** A trimmed clause that can be read is the only clause of
its text, so that its selector is all that is read and nothing is rejected, exactly if its
attributes are quiet: no comma stands behind an operator that opens a bracket. -/
theorem read_eq_singleton_iff_quiet {clause : Text} {s : Selector} (htrim : clause.trim = clause)
    (h : Selector.parse clause = .ok s) : read clause = ⟨[s], []⟩ ↔ Quiet s.clauses := by
  have hclauses : ClausesIn s.clauses clause := (Selector.spelling_of_parse h).clausesIn
  have hne : clause.trim ≠ [] := by
    rw [htrim]
    rintro rfl
    exact Selector.parse_nil_ne s h
  rw [read, Clause.split_eq_pieces hne, ← hclauses.firstEnd?_eq_none_iff]
  constructor
  · intro hread
    have hlength := length_readClauses (Clause.pieces clause)
    rw [hread] at hlength
    cases hend : Clause.firstEnd? clause with
    | none => rfl
    | some k =>
        obtain ⟨u, r, rfl, rfl, -⟩ := Clause.exists_of_firstEnd? hend
        rw [Clause.pieces_append_comma hend, List.length_cons] at hlength
        exact absurd hlength (by simpa using Clause.pieces_ne_nil r)
  · intro hend
    rw [Clause.pieces_of_firstEnd?_eq_none hend, htrim, readClauses, h]
    rfl

/-- A comma in quotes is read as a part of its operand, also before an operator that opens a
bracket. -/
theorem read_eq_singleton_of_comma_before_bracket :
    read "p[a='1,2'][b[=c]".toList =
      ⟨[⟨{ tag := some (.named ['p']),
           attributes :=
            [⟨['a'], .equals ['1', ',', '2']⟩, ⟨['b'], .unsupported ['[', '='] ['c']⟩] }, []⟩],
        []⟩ := by
  refine (read_eq_singleton_iff_quiet (by decide +kernel) (by decide +kernel)).mpr ?_
  simp [Selector.clauses, Selector.simples, Quiet, AttributeClause.Opens,
    AttributeClause.HoldsComma, AttributeTest.operator?]

/-- **A comma in quotes cuts a clause that can be read**, where the operator before it opens a
bracket. -/
theorem read_ne_singleton_of_comma_behind_bracket :
    Text.trim "a[x[='1,2']".toList = "a[x[='1,2']".toList ∧
      ∃ s, Selector.parse "a[x[='1,2']".toList = .ok s ∧ read "a[x[='1,2']".toList ≠ ⟨[s], []⟩ := by
  refine ⟨by decide +kernel, ?_⟩
  refine ⟨⟨{ tag := some (.named ['a']),
             attributes := [⟨['x'], .unsupported ['[', '='] ['1', ',', '2']⟩] }, []⟩, ?_⟩
  decide +kernel

end SelectorList

/-! ### Clauses that are not read -/

/-- If one text leaves a quote open, the scan does not come back to the top level in the next text
behind the comma between them. The quote may be shut there all the same, as long as a bracket that
is open keeps the scan inside. -/
def Clause.StaysOpen (m g : Text) : Prop :=
  ∀ q, (Nesting.after {} m).quote = some q →
    Nesting.StaysInside (Nesting.after {} m) (',' :: ' ' :: g)

/-- A quote that is not in the next text is not shut there. -/
theorem Clause.staysOpen_of_notMem {m g : Text}
    (h : ∀ q, (Nesting.after {} m).quote = some q → q ∉ ',' :: ' ' :: g) : StaysOpen m g := by
  intro q hq
  have hinside := (Nesting.Raises.after_quoted (h q hq) (Nesting.after {} m).depth).2
  rwa [← hq] at hinside

/-- Before a text that leads inside only, an open bracket alone keeps the scan inside, so that only
an open quote has to be asked about. -/
theorem Clause.staysOpen_iff {m g : Text} {k : Nat} (hg : Nesting.Raises k g) :
    StaysOpen m g ↔ (Nesting.after {} m).isTop = true ∨
      Nesting.StaysInside (Nesting.after {} m) (',' :: ' ' :: g) := by
  have hcomma : Nesting.Raises 0 [','] := .singleton (by decide)
  have hblank : Nesting.Raises 0 [' '] := .singleton (by decide)
  have hraises := hcomma.append (hblank.append hg)
  unfold StaysOpen
  generalize Nesting.after {} m = n
  obtain ⟨depth, quote⟩ := n
  cases quote with
  | some q => simp [Nesting.isTop]
  | none =>
      cases depth with
      | zero => simp [Nesting.isTop]
      | succ depth =>
          have hinside := (hraises depth).2
          simp only [List.cons_append, List.nil_append] at hinside
          simp [hinside]

namespace SelectorList

/-- **What a malformed clause takes from the text behind it.** Let a text without commas hold no
selector and let nothing be rejected of a second text. Behind a comma the second text leaves the
first a clause of its own exactly if the scan, where the first text left a quote open, does not
come back to the top level in the second, and then the selectors are those of the second text. -/
theorem parse_append_of_malformed {m g : Text} (hm : ',' ∉ m) (hmalformed : parse m = [])
    (hg : (read g).rejected = []) :
    ((Clause.split (m ++ [',', ' '] ++ g)).head? = some m.trim ↔ Clause.StaysOpen m g) ∧
      (Clause.StaysOpen m g → parse (m ++ [',', ' '] ++ g) = parse g) := by
  obtain ⟨us, hus⟩ := exists_joins_of_rejected hg
  obtain ⟨k, hk⟩ := hus.exists_raises
  have hjoin : m ++ [',', ' '] ++ g = m ++ ',' :: ' ' :: g := by simp
  have hne : (m ++ ',' :: ' ' :: g).trim ≠ [] := by
    intro hnil
    cases Text.trim_eq_nil_iff.mp hnil ',' (by simp)
  rw [hjoin, Clause.split_eq_pieces hne, Clause.head?_pieces_append_comma_iff hm,
    Clause.staysOpen_iff hk]
  refine ⟨Iff.rfl, fun hopen => ?_⟩
  have hunread : ∀ s, Selector.parse m.trim ≠ .ok s := by
    intro s hs
    rw [parse_eq_selectors_pieces,
      Clause.pieces_of_firstEnd?_eq_none (Clause.firstEnd?_eq_none_of_notMem hm), readClauses,
      hs] at hmalformed
    cases hmalformed
  rw [parse_eq_selectors_pieces,
    Clause.pieces_append_comma ((Clause.firstEnd?_append_comma_iff hm).mpr hopen),
    selectors_readClauses_cons hunread, hus.pieces_blank, ← parse_eq_selectors_pieces]

/-- An attribute clause that is not closed comes off before a quotation with a comma in it. -/
theorem parse_append_unclosed_attribute :
    (Clause.split ("a[href".toList ++ [',', ' '] ++ "p[x='1,2'], b".toList)).head? =
        some "a[href".toList ∧
      parse ("a[href".toList ++ [',', ' '] ++ "p[x='1,2'], b".toList) =
        parse "p[x='1,2'], b".toList := by
  have hopen : Clause.StaysOpen "a[href".toList "p[x='1,2'], b".toList :=
    Clause.staysOpen_of_notMem (by simp [Nesting.after, Nesting.step, isQuote])
  have hmain := parse_append_of_malformed (m := "a[href".toList) (g := "p[x='1,2'], b".toList)
    (by decide) (by decide +kernel) (by decide +kernel)
  exact ⟨hmain.1.mpr hopen, hmain.2 hopen⟩

/-- **A malformed clause takes the next one with it**, where the end of a quotation that it leaves
open leads the scan back to the top level there. -/
theorem parse_append_ne_of_shut_quote :
    ',' ∉ "it's".toList ∧ parse "it's".toList = [] ∧ (read "a[title='x']".toList).rejected = [] ∧
      parse ("it's".toList ++ [',', ' '] ++ "a[title='x']".toList) ≠
        parse "a[title='x']".toList := by
  decide +kernel

end SelectorList

end TreeSelect
