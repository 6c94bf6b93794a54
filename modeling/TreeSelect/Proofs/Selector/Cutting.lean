import TreeSelect.Proofs.Selector.Alternatives
/-!
# What is cut off is all there is

Cutting a text into clauses only leaves commas out and trims what stands between them. Which commas
those are depends on brackets and quotes, and where one of these is left open the scan goes back to
its first comma; but each cut is made right at a comma, behind the cut before it, and what follows
the last one is a clause too. So the untrimmed clauses with their commas make up the text.

Each clause is then read or rejected, and the two lists of an outcome are these two kinds of
clauses.

## Main definitions

* `Text.parts`: what lies before, between and behind given places of a text.
* `Rejected.of?`: the rejection of a clause that is not read.

## Main statements

* `Text.intercalate_parts`: the parts and what stands at the places make up the text.
* `Clause.exists_cuts`: the places at which a text is cut.
* `SelectorList.read_accounts_for_split`: **every clause of a text is accounted for.**
-/

namespace TreeSelect

/-! ### Parts of a text -/

/-- What lies of a text before, between and behind some places, from a given start on. What stands
at the places belongs to no part. -/
def Text.partsFrom (t : Text) (start : Nat) : List Nat → List Text
  | [] => [t.drop start]
  | k :: further => (t.take k).drop start :: t.partsFrom (k + 1) further

/-- What lies of a text before, between and behind some places. -/
def Text.parts (t : Text) (places : List Nat) : List Text :=
  t.partsFrom 0 places

namespace Text

/-- There is a part behind the last place. -/
theorem partsFrom_ne_nil (t : Text) (start : Nat) (places : List Nat) :
    t.partsFrom start places ≠ [] := by
  cases places <;> simp [partsFrom]

/-- The parts of a longer text, with all places in its second half, are those of that half. -/
theorem partsFrom_append (s r : Text) (start : Nat) (places : List Nat) :
    (s ++ r).partsFrom (s.length + start) (places.map (s.length + ·)) =
      r.partsFrom start places := by
  induction places generalizing start with
  | nil => simp [partsFrom]
  | cons k further ih =>
      rw [List.map_cons, partsFrom, partsFrom, Nat.add_assoc, ih, List.take_length_add_append,
        List.drop_length_add_append]

/-- The parts of a text that is cut at a comma and further on are what stands before the comma and
the parts of the rest. -/
theorem parts_append_cons (s r : Text) (c : Char) (places : List Nat) :
    (s ++ c :: r).parts (s.length :: places.map (s.length + 1 + ·)) = s :: r.parts places := by
  have hrest := partsFrom_append (s ++ [c]) r 0 places
  rw [List.length_append, List.length_singleton, Nat.add_zero, List.append_assoc,
    List.singleton_append] at hrest
  rw [parts, partsFrom, hrest, List.take_left, List.drop_zero, parts]

/-- The parts behind a start and what stands at the places make up the text from there on. -/
theorem intercalate_partsFrom {t : Text} {c : Char} {start : Nat} {places : List Nat}
    (hstart : ∀ k ∈ places, start ≤ k) (hincreasing : places.Pairwise (· < ·))
    (hplaces : ∀ k ∈ places, t[k]? = some c) :
    [c].intercalate (t.partsFrom start places) = t.drop start := by
  induction places generalizing start with
  | nil => simp [partsFrom]
  | cons k further ih =>
      obtain ⟨hbehind, hincreasing⟩ := List.pairwise_cons.mp hincreasing
      obtain ⟨hk, hc⟩ := List.getElem?_eq_some_iff.mp (hplaces k (by simp))
      have hle : start ≤ k := hstart k (by simp)
      have hrest := ih (fun m hm => hbehind m hm) hincreasing fun m hm =>
        hplaces m (List.mem_cons_of_mem _ hm)
      have hsplit : t.drop start = (t.take k).drop start ++ c :: t.drop (k + 1) := by
        rw [← hc, ← List.drop_eq_getElem_cons hk, ← List.drop_append_of_le_length (by simp; omega),
          List.take_append_drop]
      rw [partsFrom, List.intercalate_cons_of_ne_nil (partsFrom_ne_nil _ _ _), hrest, hsplit,
        List.append_assoc, List.singleton_append]

/-- **The parts and what stands at the places make up the text.** -/
theorem intercalate_parts {t : Text} {c : Char} {places : List Nat}
    (hincreasing : places.Pairwise (· < ·)) (hplaces : ∀ k ∈ places, t[k]? = some c) :
    [c].intercalate (t.parts places) = t :=
  intercalate_partsFrom (fun k _ => Nat.zero_le k) hincreasing hplaces

end Text

/-! ### The places of the cuts -/

/-- **A text is cut at commas**, from left to right: its pieces are what trimming leaves of the
parts between them, and none of the parts would be cut again. -/
theorem Clause.exists_cuts (t : Text) :
    ∃ cuts : List Nat, cuts.Pairwise (· < ·) ∧ (∀ k ∈ cuts, t[k]? = some ',') ∧
      pieces t = (t.parts cuts).map Text.trim ∧ ∀ u ∈ t.parts cuts, firstEnd? u = none := by
  induction t using pieces_induction with
  | single t hend =>
      have hparts : t.parts [] = [t] := rfl
      refine ⟨[], .nil, List.forall_mem_nil _, ?_, ?_⟩
      · rw [pieces_of_firstEnd?_eq_none hend, hparts, List.map_singleton]
      · simpa [hparts] using hend
  | cons s r hs hend ih =>
      obtain ⟨cuts, hincreasing, hcommas, hpieces, hparts⟩ := ih
      refine ⟨s.length :: cuts.map (s.length + 1 + ·), ?_, ?_, ?_, ?_⟩
      · refine List.pairwise_cons.mpr ⟨fun k hk => ?_, ?_⟩
        · obtain ⟨m, -, rfl⟩ := List.mem_map.mp hk
          omega
        · exact hincreasing.map _ fun a b hab => Nat.add_lt_add_left hab _
      · refine List.forall_mem_cons.mpr ⟨by simp, fun k hk => ?_⟩
        obtain ⟨m, hm, rfl⟩ := List.mem_map.mp hk
        have hplace : s.length + 1 + m - s.length = m + 1 := by omega
        rw [List.getElem?_append_right (by omega), hplace, List.getElem?_cons_succ]
        exact hcommas m hm
      · rw [pieces_append_comma hend, Text.parts_append_cons, hpieces, List.map_cons]
      · rw [Text.parts_append_cons]
        exact List.forall_mem_cons.mpr ⟨hs, hparts⟩

/-! ### What becomes of each clause -/

/-- The rejection of a clause, unless it is read. -/
def Rejected.of? (clause : Text) : Option Rejected :=
  match Selector.parse clause with
  | .ok _ => none
  | .error error => some ⟨clause, error⟩

namespace SelectorList

/-- Clauses that are read make up the selectors and the others are rejected, both in order. -/
theorem readClauses_eq (clauses : List Text) :
    readClauses clauses =
      ⟨clauses.filterMap fun clause => (Selector.parse clause).toOption,
        clauses.filterMap Rejected.of?⟩ := by
  induction clauses with
  | nil => rfl
  | cons clause clauses ih =>
      rw [readClauses, ih]
      cases hread : Selector.parse clause with
      | ok s => simp [Rejected.of?, hread, Except.toOption]
      | error e => simp [Rejected.of?, hread, Except.toOption]

/-- **Every clause of a text is accounted for.** A text that is not blank throughout is cut at some
of its commas, whatever brackets and quotes it leaves open: its clauses are what trimming leaves of
the parts between the commas, in their order, and with the commas these parts make up the text. Of
the clauses those that can be read are the selectors of the text, and the others are rejected with
the reason for which they are not read, both in text order. -/
theorem read_accounts_for_split {text : Text} (h : ∃ c ∈ text, Text.isBlank c = false) :
    (∃ cuts : List Nat, cuts.Pairwise (· < ·) ∧ (∀ k ∈ cuts, text[k]? = some ',') ∧
      Clause.split text = (text.parts cuts).map Text.trim ∧
      [','].intercalate (text.parts cuts) = text ∧
      ∀ u ∈ text.parts cuts, Clause.firstEnd? u = none) ∧
    (read text).selectors =
      (Clause.split text).filterMap (fun clause => (Selector.parse clause).toOption) ∧
    (read text).rejected = (Clause.split text).filterMap Rejected.of? ∧
    (read text).selectors.length + (read text).rejected.length = (Clause.split text).length := by
  have hkept : text.trim ≠ [] := by
    obtain ⟨c, hc, hblank⟩ := h
    intro hnil
    rw [Text.trim_eq_nil_iff.mp hnil c hc] at hblank
    cases hblank
  obtain ⟨cuts, hincreasing, hcommas, hpieces, hparts⟩ := Clause.exists_cuts text
  refine ⟨⟨cuts, hincreasing, hcommas, ?_, Text.intercalate_parts hincreasing hcommas, hparts⟩,
    ?_, ?_, length_readClauses _⟩
  · rw [Clause.split_eq_pieces hkept, hpieces]
  · rw [read, readClauses_eq]
  · rw [read, readClauses_eq]

/-- Four clauses, of which one leaves a bracket open and the next has a comma in quotes. -/
def fourClauses : Text :=
  "div, a[href, p[x='1,2'], *".toList

/-- The open bracket takes nothing from the clauses behind it. -/
theorem read_accounts_for_split_fourClauses :
    (∃ c ∈ fourClauses, Text.isBlank c = false) ∧
      (∃ cuts : List Nat, cuts.Pairwise (· < ·) ∧ (∀ k ∈ cuts, fourClauses[k]? = some ',') ∧
        (fourClauses.parts cuts).map Text.trim =
          ["div".toList, "a[href".toList, "p[x='1,2']".toList, "*".toList]) ∧
      (read fourClauses).selectors.length = 3 ∧
      (read fourClauses).rejected = [⟨"a[href".toList, .unclosedAttribute 1⟩] := by
  have hsome : ∃ c ∈ fourClauses, Text.isBlank c = false := ⟨'d', by decide, by decide⟩
  have hsplit : Clause.split fourClauses =
      ["div".toList, "a[href".toList, "p[x='1,2']".toList, "*".toList] := by
    decide +kernel
  obtain ⟨⟨cuts, hincreasing, hcommas, hparts, -, -⟩, -, hrejected, hlength⟩ :=
    read_accounts_for_split hsome
  have hunread : (read fourClauses).rejected = [⟨"a[href".toList, .unclosedAttribute 1⟩] := by
    rw [hrejected, hsplit]
    decide +kernel
  refine ⟨hsome, ⟨cuts, hincreasing, hcommas, hparts ▸ hsplit⟩, ?_, hunread⟩
  rw [hunread, hsplit] at hlength
  exact Nat.succ.inj hlength

end SelectorList

end TreeSelect
