import TreeSelect.Proofs.Selector.Alternatives
import TreeSelect.Proofs.Selector.Canonical
import TreeSelect.Proofs.Selector.Trimming
/-!
# Reading canonical texts back

The canonical text of a selector list is cut where its selectors were joined, and each piece spells
its selector. What is left to go wrong is the trimming of the pieces: an id is written before the
classes, so a class that stood before an id may come to stand at the end, and if its name ends in a
blank, the blank is lost. A selector by itself is read without trimming, and there its canonical
text is read back whenever its parts can be written at all.

## Main statements

* `Selector.parse_text_eq_ok_iff`: when the canonical text of a selector is read back.
* `Clause.pieces_append_continued`: quiet texts that are joined come apart again.
* `SelectorList.split_text`: the clauses of a canonical text are those of its selectors.
* `SelectorList.read_text_eq_iff`: when the canonical text of a list is read back.
-/

namespace TreeSelect

/-! ### One selector -/

/-- **When the canonical text of a selector is read back.** However a selector was made, its
canonical text is read as the same selector exactly if no simple selector of it is empty, its names
are names, its operators are operators and no operand holds both quotes. -/
theorem Selector.parse_text_eq_ok_iff (s : Selector) : parse s.text = .ok s ↔ s.Legal := by
  constructor
  · intro h
    exact (spelling_of_parse h).legal
  · intro h
    exact parse_of_spelling h.spelling_text

/-- The operand is read back although it holds a bracket, a comma, a symbol and one kind of quote,
and so is the operator, which has no meaning. -/
example :
    let s : Selector := {
      head := { id := some ['x'], classes := [['a'], ['-', 'b']], attributes :=
        [⟨['k'], .unsupported ['[', ',', '!'] [' ', ']', ',', '>', '"']⟩, ⟨['k'], .present⟩] }
      rest := [(.descendant, { tag := some .universal }), (.subsequentSibling,
        { tag := some (.named ['p']), attributes := [⟨['0'], .includes []⟩] })] }
    Selector.parse s.text = .ok s := by
  decide +kernel

/-! ### Joined texts -/

namespace Clause

/-- Texts behind the first of a join, each with its comma. -/
def continued (texts : List Text) : Text :=
  texts.flatMap fun t => ',' :: ' ' :: t

/-- A join is its first text and the others with their commas. -/
theorem intercalate_cons (t : Text) (texts : List Text) :
    List.intercalate [',', ' '] (t :: texts) = t ++ continued texts := by
  induction texts generalizing t with
  | nil => simp [continued]
  | cons u texts ih =>
      rw [List.intercalate_cons_cons, ih]
      simp [continued]

/-- Quiet texts with their commas between them are a join; the blanks behind the commas belong to
its clauses. -/
theorem exists_joins_continued {t : Text} {texts : List Text}
    (h : ∀ u ∈ t :: texts, ∃ clauses, ClausesIn clauses u ∧ Quiet clauses) :
    ∃ us, Joins us (t ++ continued texts) ∧ us.map Text.trim = (t :: texts).map Text.trim := by
  induction texts generalizing t with
  | nil =>
      obtain ⟨clauses, hclauses, hquiet⟩ := h t (by simp)
      exact ⟨[t], by simpa [continued] using Joins.single hclauses hquiet, rfl⟩
  | cons u texts ih =>
      obtain ⟨clauses, hclauses, hquiet⟩ := h t (by simp)
      obtain ⟨us, hus, htrim⟩ := ih fun v hv => h v (List.mem_cons_of_mem _ hv)
      obtain ⟨vs, hvs, hblank⟩ := hus.exists_blank
      have hjoin : t ++ continued (u :: texts) = t ++ ',' :: ' ' :: (u ++ continued texts) := by
        simp [continued]
      refine ⟨t :: vs, ?_, by simp [hblank, htrim]⟩
      rw [hjoin]
      exact .cons hclauses hquiet hvs

/-- **Quiet texts that are joined come apart again**, each trimmed. -/
theorem pieces_append_continued {t : Text} {texts : List Text}
    (h : ∀ u ∈ t :: texts, ∃ clauses, ClausesIn clauses u ∧ Quiet clauses) :
    pieces (t ++ continued texts) = (t :: texts).map Text.trim := by
  obtain ⟨us, hus, htrim⟩ := exists_joins_continued h
  rw [hus.pieces_eq, htrim]

end Clause

/-! ### Clauses that were read -/

namespace SelectorList

/-- A selector of a text was read from one of its clauses. -/
theorem exists_clause_of_mem_readClauses {clauses : List Text} {s : Selector}
    (h : s ∈ (readClauses clauses).selectors) :
    ∃ clause ∈ clauses, Selector.parse clause = .ok s := by
  induction clauses with
  | nil => cases h
  | cons clause clauses ih =>
      rw [readClauses] at h
      split at h
      · rename_i first hfirst
        rcases List.mem_cons.mp h with rfl | h
        · exact ⟨clause, by simp, hfirst⟩
        · obtain ⟨other, hother, hread⟩ := ih h
          exact ⟨other, List.mem_cons_of_mem _ hother, hread⟩
      · obtain ⟨other, hother, hread⟩ := ih h
        exact ⟨other, List.mem_cons_of_mem _ hother, hread⟩

/-- Texts are read back as a list and nothing is rejected exactly if each is read as its
selector. -/
theorem readClauses_map_eq_iff {list : SelectorList} {f : Selector → Text} :
    readClauses (list.map f) = ⟨list, []⟩ ↔ ∀ s ∈ list, Selector.parse (f s) = .ok s := by
  induction list with
  | nil => simp [readClauses]
  | cons s list ih =>
      rw [List.map_cons, readClauses, List.forall_mem_cons, ← ih]
      generalize readClauses (list.map f) = further
      obtain ⟨selectors, rejected⟩ := further
      cases Selector.parse (f s) with
      | ok other =>
          simp only [Outcome.mk.injEq, List.cons.injEq, Except.ok.injEq]
          exact and_assoc
      | error e => simp

/-- A selector of a text is spelled by a trimmed clause, and its attributes are quiet. -/
theorem exists_spelling_of_mem_parse {t : Text} {s : Selector} (h : s ∈ parse t) :
    ∃ clause, s.Spelling clause ∧ clause.Stops Text.isBlank ∧
      (∀ c ∈ clause.getLast?, Text.isBlank c = false) ∧ Quiet s.clauses := by
  obtain ⟨clause, hmem, hread⟩ := exists_clause_of_mem_readClauses h
  obtain ⟨u, rfl, hend⟩ := Clause.exists_of_mem_split hmem
  obtain ⟨before, after, -, -, -, hstops, hlast⟩ := Text.exists_trim u
  have hclauses := Selector.clausesIn_of_parse_trim hread
  exact ⟨u.trim, Selector.spelling_of_parse hread, hstops, hlast,
    hclauses.firstEnd?_eq_none_iff.mp hend⟩

end SelectorList

/-! ### The ends of canonical texts -/

/-- A type has one spelling. -/
theorem TypeSpelling.eq_text {tag : Option TypeSelector} {w : Text} (h : TypeSpelling tag w) :
    w = (tag.map TypeSelector.text).getD [] := by
  cases h <;> rfl

/-- Without classes an id has one spelling. -/
theorem MarksSpelling.eq_text {id : Option Text} {w : Text} (h : MarksSpelling id [] w) :
    w = (id.map ('#' :: ·)).getD [] := by
  cases h with
  | nil => rfl
  | id isName further =>
      cases further
      simp

/-- The canonical text of a clause ends with its bracket. -/
theorem AttributeClause.getLast?_text (clause : AttributeClause) :
    clause.text.getLast? = some ']' := by
  unfold text
  split
  · rw [List.getLast?_append]
    rfl
  · rw [List.getLast?_append]
    rfl

/-- The canonical text of a simple selector starts with no blank if a spelling does not. -/
theorem Simple.Spelling.stops_text {s : Simple} {w : Text} (h : s.Spelling w)
    (hw : w.Stops Text.isBlank) : s.text.Stops Text.isBlank := by
  have hlegal := h.legal
  obtain ⟨-, type, marks, attributes, rfl, htype, -, -⟩ := h
  have hmarks := (marksSpelling_text hlegal.id hlegal.classes).stops (p := Text.isBlank)
    (by decide) (by decide)
  have hattributes := (attributesSpelling_text hlegal.attributes).stops (p := Text.isBlank)
    (by decide)
  rw [text_of_not_isEmpty hlegal.isEmpty_eq_false, ← htype.eq_text]
  exact hw.of_append.append (hmarks.append hattributes)

/-- The canonical text of a selector starts with no blank if a clause that spells it does not. -/
theorem Selector.Spelling.stops_text {s : Selector} {clause : Text} (h : s.Spelling clause)
    (hclause : clause.Stops Text.isBlank) : s.text.Stops Text.isBlank := by
  have hlegal := h.legal
  obtain ⟨before, head, rest, after, rfl, hbefore, hhead, -, -⟩ := h
  have hw : head.Stops Text.isBlank := by
    cases before with
    | nil => exact Text.Stops.of_append hclause
    | cons c before =>
        have hc := Text.isBlank_of_isSpace (hbefore c (by simp))
        rw [hclause.of_cons] at hc
        cases hc
  exact (hhead.stops_text hw).append_of_ne_nil (hlegal s.head (by simp [simples])).text_ne_nil

/-- The canonical text of a simple selector may end in a blank where its spelling does not, but
only at the end of a class. -/
theorem Simple.Spelling.exists_class {s : Simple} {w : Text} (h : s.Spelling w)
    (hw : ∀ c ∈ w.getLast?, Text.isBlank c = false) {c : Char} (hc : c ∈ s.text.getLast?)
    (hblank : Text.isBlank c = true) : ∃ before n, s.text = before ++ '.' :: n ∧ IsName n := by
  have hlegal := h.legal
  obtain ⟨-, type, marks, attributes, rfl, htype, hmarks, hattributes⟩ := h
  have htext := text_of_not_isEmpty hlegal.isEmpty_eq_false
  obtain ⟨tag, id, classes, clauses⟩ := s
  rcases List.eq_nil_or_concat clauses with rfl | ⟨init, clause, rfl⟩
  · cases hattributes
    rcases List.eq_nil_or_concat classes with rfl | ⟨init, n, rfl⟩
    · -- the spelling is the canonical text
      rw [htext, ← htype.eq_text] at hc
      simp only [List.flatMap_nil, List.append_nil] at hc hw
      rw [← hmarks.eq_text] at hc
      rw [hw c hc] at hblank
      cases hblank
    · refine ⟨(tag.map TypeSelector.text).getD [] ++ ((id.map ('#' :: ·)).getD [] ++
        init.flatMap ('.' :: ·)), n, ?_, hlegal.classes n (by simp)⟩
      rw [htext]
      simp
  · have hlast : (Simple.text ⟨tag, id, classes, init.concat clause⟩).getLast? = some ']' := by
      rw [htext]
      simp [List.getLast?_append, AttributeClause.getLast?_text]
    rw [hlast] at hc
    cases hc
    cases hblank

/-- The canonical text of a chain may end in a blank where its spelling does not, but only at the
end of a class. -/
theorem ChainSpelling.exists_class {rest : List (Combinator × Simple)} {r : Text}
    (h : ChainSpelling rest r) {head : Simple} {w : Text} (hw : head.Spelling w)
    (hlast : ∀ c ∈ (w ++ r).getLast?, Text.isBlank c = false) {c : Char}
    (hc : c ∈ (head.text ++ stepsText rest).getLast?) (hblank : Text.isBlank c = true) :
    ∃ before n, head.text ++ stepsText rest = before ++ '.' :: n ∧ IsName n := by
  induction h generalizing head w with
  | nil =>
      rw [List.append_nil] at hlast
      simp only [stepsText, List.flatMap_nil, List.append_nil] at hc ⊢
      exact hw.exists_class hlast hc hblank
  | @cons k s rest between w' r separated spelled further ih =>
      have hsteps : stepsText ((k, s) :: rest) = k.spaced ++ (s.text ++ stepsText rest) := by
        simp [stepsText]
      have hne : w' ++ r ≠ [] := by simp [spelled.1]
      have hne' : s.text ++ stepsText rest ≠ [] := by simp [spelled.legal.text_ne_nil]
      rw [List.getLast?_append_of_ne_nil _ (by simp [hne]),
        List.getLast?_append_of_ne_nil _ hne] at hlast
      rw [hsteps, List.getLast?_append_of_ne_nil _ (by simp [hne']),
        List.getLast?_append_of_ne_nil _ hne'] at hc
      obtain ⟨before, n, hsplit, hn⟩ := ih spelled hlast hc
      exact ⟨head.text ++ (k.spaced ++ before), n, by rw [hsteps, hsplit]; simp, hn⟩

/-- The canonical text of a selector may end in a blank where a clause that spells it does not, but
only at the end of a class. -/
theorem Selector.Spelling.exists_class {s : Selector} {clause : Text} (h : s.Spelling clause)
    (hlast : ∀ c ∈ clause.getLast?, Text.isBlank c = false) {c : Char}
    (hc : c ∈ s.text.getLast?) (hblank : Text.isBlank c = true) :
    ∃ before n, s.text = before ++ '.' :: n ∧ IsName n := by
  obtain ⟨before, head, rest, after, rfl, -, hhead, hrest, hafter⟩ := h
  have hnil : after = [] := by
    rcases List.eq_nil_or_concat after with rfl | ⟨init, d, rfl⟩
    · rfl
    · have hd := Text.isBlank_of_isSpace (hafter d (by simp))
      rw [hlast d (by simp [List.getLast?_append])] at hd
      cases hd
  rw [hnil, List.append_nil, List.getLast?_append_of_ne_nil _ (by simp [hhead.1])] at hlast
  exact hrest.exists_class hhead hlast hc hblank

/-- A blank that may stand in a name may start one. -/
theorem isNameStart_of_isBlank {c : Char} (h : Text.isBlank c = true)
    (hname : isNameChar c = true) : isNameStart c = true := by
  have hdigit : c.isDigit = false := by
    cases hd : c.isDigit with
    | false => rfl
    | true =>
        simp only [Char.isDigit, Bool.and_eq_true, decide_eq_true_eq] at hd
        have hlow : 48 ≤ c.toNat := UInt32.le_iff_toNat_le.mp hd.1
        have hhigh : c.toNat ≤ 57 := UInt32.le_iff_toNat_le.mp hd.2
        simp only [Text.isBlank, Bool.or_eq_true, Bool.and_eq_true, decide_eq_true_eq,
          beq_iff_eq] at h
        omega
  have hhyphen : (c == '-') = false := by
    rw [beq_eq_false_iff_ne]
    rintro rfl
    cases h
  simpa [isNameChar, hdigit, hhyphen] using hname

/-- A blank end of a text stands behind the last character that is not blank. -/
theorem exists_of_append_eq {before n p x : Text} {d : Char}
    (h : before ++ d :: n = p ++ x) (hd : d ∉ x) : ∃ m, n = m ++ x := by
  obtain ⟨y, rfl, hy⟩ | ⟨y, rfl, rfl⟩ := List.append_eq_append_iff.mp h
  · cases y with
    | nil =>
        refine absurd ?_ hd
        rw [List.nil_append] at hy
        simp [← hy]
    | cons c m => exact ⟨m, (List.cons.inj hy).2⟩
  · exact absurd (by simp) hd

/-! ### Reading back -/

namespace SelectorList

/-- A selector of a text is read back from its trimmed canonical text exactly if that text ends in
no blank. -/
theorem parse_trim_text_iff {t : Text} {s : Selector} (h : s ∈ parse t) :
    Selector.parse s.text.trim = .ok s ↔ ∀ c ∈ s.text.getLast?, Text.isBlank c = false := by
  obtain ⟨clause, hspelled, hstops, hlast, -⟩ := exists_spelling_of_mem_parse h
  have hcanonical := hspelled.legal.spelling_text
  have hfirst := hspelled.stops_text hstops
  constructor
  · intro hread c hc
    refine Bool.eq_false_iff.mpr fun hblank => ?_
    obtain ⟨before, n, hclass, hname⟩ := hspelled.exists_class hlast hc hblank
    obtain ⟨x, hsplit, hkept, hx⟩ := Text.exists_trimEnd s.text
    rw [Text.trim_eq_trimEnd hfirst] at hread
    generalize s.text.trimEnd = kept at hread hsplit hkept
    have hne : x ≠ [] := by
      rintro rfl
      rw [hsplit, List.append_nil] at hc
      rw [hkept c hc] at hblank
      cases hblank
    have hdot : '.' ∉ x := by
      intro hmem
      cases hx '.' hmem
    -- what was trimmed off is the end of a class
    obtain ⟨m, rfl⟩ := exists_of_append_eq (hclass.symm.trans hsplit) hdot
    have hstart : ∀ d ∈ x, isNameStart d = true := fun d hd =>
      isNameStart_of_isBlank (hx d hd) (hname.2 d (List.mem_append_right _ hd))
    rw [hsplit] at hcanonical
    exact (Selector.spelling_of_parse hread).not_append hstart hne hcanonical
  · intro hend
    rw [Text.trim_eq_self hfirst hend]
    exact Selector.parse_of_spelling hcanonical

/-- The clauses of a canonical text are the trimmed canonical texts of the selectors. -/
theorem split_text (t : Text) :
    Clause.split (text (parse t)) = (parse t).map fun s => s.text.trim := by
  have hquiet : ∀ u ∈ (parse t).map Selector.text,
      ∃ clauses, ClausesIn clauses u ∧ Quiet clauses := by
    intro u hu
    obtain ⟨s, hs, rfl⟩ := List.mem_map.mp hu
    obtain ⟨clause, hspelled, -, -, hquiet⟩ := exists_spelling_of_mem_parse hs
    exact ⟨s.clauses, hspelled.legal.spelling_text.clausesIn, hquiet⟩
  have hstops : ∀ s ∈ parse t, s.text.Stops Text.isBlank ∧ s.text ≠ [] := by
    intro s hs
    obtain ⟨clause, hspelled, hstops, -, -⟩ := exists_spelling_of_mem_parse hs
    obtain ⟨tokens, hlexes, hreads⟩ := hspelled.legal.spelling_text.exists_reads
    refine ⟨hspelled.stops_text hstops, fun hnil => ?_⟩
    rw [hnil] at hlexes
    rw [eq_nil_of_lexes_nil hlexes] at hreads
    cases hreads.lacksOperand_eq_false
  generalize parse t = list at hquiet hstops ⊢
  cases list with
  | nil => rfl
  | cons s list =>
      obtain ⟨hfirst, hne⟩ := hstops s (by simp)
      have hkept : (s.text ++ Clause.continued (list.map Selector.text)).trim ≠ [] := by
        intro hnil
        obtain ⟨c, r, hcons⟩ := List.exists_cons_of_ne_nil hne
        rw [hcons] at hfirst hnil
        have hc := Text.trim_eq_nil_iff.mp hnil c (by simp)
        rw [hfirst.of_cons] at hc
        cases hc
      rw [text, List.map_cons, Clause.intercalate_cons, Clause.split_eq_pieces hkept,
        Clause.pieces_append_continued hquiet, List.map_cons, List.map_map]
      rfl

/-- **When canonical text is read back.** The canonical text of what was read from a text is read as
the same list, without a rejected clause, exactly if no selector's canonical text ends in a blank.
A blank can stand there only at the end of a class that stood before an id. -/
theorem read_text_eq_iff (t : Text) :
    read (text (parse t)) = ⟨parse t, []⟩ ↔
      ∀ s ∈ parse t, ∀ c ∈ s.text.getLast?, Text.isBlank c = false := by
  rw [read, split_text, readClauses_map_eq_iff]
  exact forall₂_congr fun s hs => parse_trim_text_iff hs

/-- A class that ends in a no-break space is not read back when an id stood behind it. -/
theorem read_text_ne_of_class_before_id :
    read (text (parse ['.', 'a', '\xa0', '#', 'x'])) ≠
      ⟨parse ['.', 'a', '\xa0', '#', 'x'], []⟩ := by
  decide +kernel

end SelectorList

end TreeSelect
