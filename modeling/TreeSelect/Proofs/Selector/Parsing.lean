import TreeSelect.Proofs.Selector.Simples
/-!
# What the reading of a clause reads

Combinators cut the tokens of a clause into stretches of operands, and the space around symbols and
at the ends holds no token. Both together give the grammar back: a clause is read as a selector
exactly if it spells it.

## Main definitions

* `Selector.Reads`: the tokens from which a chain is read.

## Main statements

* `Selector.ofTokens_eq_ok_iff`: a chain is read exactly from such tokens.
* `Selector.parse_eq_ok_iff_spelling`: a clause is read as a selector exactly if it spells it.
-/

namespace TreeSelect

/-! ### Cutting at combinators -/

/-- The tokens from which a chain is read: stretches of operands, a combinator between two. -/
inductive Selector.Reads : List Token → Simple → List (Combinator × Simple) → Prop
  | single {tokens : List Token} {s : Simple} (nonempty : tokens ≠ [])
      (operands : ∀ token ∈ tokens, token.isCombinator = false)
      (read : Simple.ofTokens tokens = .ok s) : Reads tokens s []
  | step {left right : List Token} {c : Combinator} {s head : Simple}
      {rest : List (Combinator × Simple)} (nonempty : left ≠ [])
      (operands : ∀ token ∈ left, token.isCombinator = false)
      (read : Simple.ofTokens left = .ok s) (further : Reads right head rest) :
      Reads (left ++ .combinator c :: right) s ((c, head) :: rest)

/-- Operands before some tokens are not cut off them. -/
theorem cutAtCombinator_append {left : List Token}
    (h : ∀ token ∈ left, token.isCombinator = false) (tokens : List Token) :
    cutAtCombinator (left ++ tokens) =
      (left ++ (cutAtCombinator tokens).1, (cutAtCombinator tokens).2) := by
  induction left with
  | nil => rfl
  | cons token left ih =>
      have hfurther := ih fun other hother => h other (by simp [hother])
      cases token with
      | combinator c => cases h (.combinator c) (by simp)
      | _ => simp [cutAtCombinator, hfurther]

/-- Operands alone are not cut. -/
theorem cutAtCombinator_of_operands {tokens : List Token}
    (h : ∀ token ∈ tokens, token.isCombinator = false) :
    cutAtCombinator tokens = (tokens, none) := by
  have hcut := cutAtCombinator_append h []
  simpa [cutAtCombinator] using hcut

/-- Tokens are cut behind the operands at their start. -/
theorem cutAtCombinator_append_cons {left : List Token}
    (h : ∀ token ∈ left, token.isCombinator = false) (c : Combinator) (right : List Token) :
    cutAtCombinator (left ++ .combinator c :: right) = (left, some (c, right)) := by
  rw [cutAtCombinator_append h]
  simp [cutAtCombinator]

/-- Before a cut stand operands, and behind it the combinator and the rest. -/
theorem eq_of_cutAtCombinator {tokens left : List Token}
    {cut : Option (Combinator × List Token)} (h : cutAtCombinator tokens = (left, cut)) :
    (∀ token ∈ left, token.isCombinator = false) ∧
      tokens = left ++ (cut.map fun (c, right) => Token.combinator c :: right).getD [] := by
  induction tokens generalizing left with
  | nil =>
      cases h
      simp
  | cons token tokens ih =>
      cases token with
      | combinator c =>
          cases h
          simp
      | _ =>
          simp only [cutAtCombinator, Prod.mk.injEq] at h
          obtain ⟨rfl, hcut⟩ := h
          obtain ⟨hoperands, htokens⟩ := ih (Prod.ext rfl hcut)
          refine ⟨fun other hother => ?_, by rw [List.cons_append, ← htokens]⟩
          rcases List.mem_cons.mp hother with rfl | hother
          · rfl
          · exact hoperands other hother

namespace Selector

/-- Tokens without a cut are read as a chain of one simple selector. -/
theorem ofTokens_of_cut_none {tokens operands : List Token}
    (h : cutAtCombinator tokens = (operands, none)) :
    ofTokens tokens = (Simple.ofTokens operands).map fun simple => ⟨simple, []⟩ := by
  rw [ofTokens]
  split
  · rename_i hcut
    rw [h] at hcut
    cases hcut
    rfl
  · rename_i hcut
    rw [h] at hcut
    cases hcut

/-- Tokens with a cut are read as a simple selector and a chain, both of which need a token. -/
theorem ofTokens_of_cut_some {tokens left right : List Token} {c : Combinator}
    (h : cutAtCombinator tokens = (left, some (c, right))) :
    ofTokens tokens =
      if left.isEmpty || lacksOperand right then .error (.missingOperand c)
      else
        match ofTokens right with
        | .error e => .error e
        | .ok chain =>
          (Simple.ofTokens left).map fun simple => ⟨simple, (c, chain.head) :: chain.rest⟩ := by
  rw [ofTokens]
  split
  · rename_i hcut
    rw [h] at hcut
    cases hcut
  · rename_i hcut
    rw [h] at hcut
    cases hcut
    rfl

/-- A chain is read from tokens the first of which is an operand. -/
theorem Reads.lacksOperand_eq_false {tokens : List Token} {head : Simple}
    {rest : List (Combinator × Simple)} (h : Reads tokens head rest) :
    lacksOperand tokens = false := by
  cases h with
  | single nonempty operands read =>
      obtain ⟨token, tokens, rfl⟩ := List.exists_cons_of_ne_nil nonempty
      exact operands token (by simp)
  | step nonempty operands read further =>
      obtain ⟨token, left, rfl⟩ := List.exists_cons_of_ne_nil nonempty
      exact operands token (by simp)

/-- A chain is read from its tokens. -/
theorem ofTokens_of_reads {tokens : List Token} {head : Simple}
    {rest : List (Combinator × Simple)} (h : Reads tokens head rest) :
    ofTokens tokens = .ok ⟨head, rest⟩ := by
  induction h with
  | single nonempty operands read =>
      rw [ofTokens_of_cut_none (cutAtCombinator_of_operands operands), read]
      rfl
  | step nonempty operands read further ih =>
      rw [ofTokens_of_cut_some (cutAtCombinator_append_cons operands _ _), ih, read,
        further.lacksOperand_eq_false, List.isEmpty_eq_false_iff.mpr nonempty]
      rfl

/-- Tokens from which a chain is read are its tokens. -/
theorem reads_of_ofTokens {tokens : List Token} {s : Selector} (hne : tokens ≠ [])
    (h : ofTokens tokens = .ok s) : Reads tokens s.head s.rest := by
  induction hlength : tokens.length using Nat.strongRecOn generalizing tokens s with
  | ind length ih =>
      cases hcut : cutAtCombinator tokens with
      | mk left cut =>
          obtain ⟨hoperands, htokens⟩ := eq_of_cutAtCombinator hcut
          cases cut with
          | none =>
              obtain rfl : tokens = left := by simpa using htokens
              rw [ofTokens_of_cut_none hcut] at h
              obtain ⟨simple, hsimple, rfl⟩ := map_eq_ok_iff.mp h
              exact .single hne hoperands hsimple
          | some cut =>
              obtain ⟨c, right⟩ := cut
              have hshorter := length_lt_of_cutAtCombinator hcut
              obtain rfl : tokens = left ++ .combinator c :: right := htokens
              rw [ofTokens_of_cut_some hcut] at h
              split at h
              · cases h
              · rename_i hboth
                simp only [Bool.or_eq_true, List.isEmpty_iff, not_or] at hboth
                split at h
                · cases h
                · rename_i chain hchain
                  obtain ⟨simple, hsimple, rfl⟩ := map_eq_ok_iff.mp h
                  have hright : right ≠ [] := by
                    rintro rfl
                    exact hboth.2 rfl
                  exact .step hboth.1 hoperands hsimple
                    (ih _ (hlength ▸ hshorter) hright hchain rfl)

/-- A chain is read exactly from its tokens. -/
theorem ofTokens_eq_ok_iff {tokens : List Token} (hne : tokens ≠ []) {s : Selector} :
    ofTokens tokens = .ok s ↔ Reads tokens s.head s.rest :=
  ⟨reads_of_ofTokens hne, ofTokens_of_reads⟩

end Selector

/-! ### Space between tokens -/

/-- Space on which nothing that matters follows holds no token. -/
theorem lexes_spacing_append {b : Bool} {tokens : List Token} {g t : Text} (hg : Spacing g)
    (hwhole : t.Stops Text.isSpace) (hapart : (b && startsOperand t) = false)
    (h : Lexes b tokens t) : Lexes b tokens (g ++ t) := by
  cases g with
  | nil => exact h
  | cons c g => exact .space (by simp) hg hwhole hapart h

/-- Space alone holds no token. -/
theorem lexes_of_spacing {b : Bool} {g : Text} (hg : Spacing g) : Lexes b [] g := by
  have h := lexes_spacing_append (b := b) hg .nil (by simp [startsOperand]) .nil
  rwa [List.append_nil] at h

/-- A text without tokens is space. -/
theorem spacing_of_lexes {b : Bool} {tokens : List Token} {t : Text} (h : Lexes b tokens t)
    (hnil : tokens = []) : Spacing t := by
  induction h with
  | nil => exact spacing_nil
  | space nonempty spacing whole apart further ih =>
      intro c hc
      rcases List.mem_append.mp hc with hc | hc
      · exact spacing c hc
      · exact ih hnil c hc
  | descendant | symbol | operand => cases hnil

/-- Space before the first token can be taken off. -/
theorem exists_spacing_of_lexes {tokens : List Token} {t : Text} (h : Lexes false tokens t) :
    ∃ g r, t = g ++ r ∧ Spacing g ∧ r.Stops Text.isSpace ∧ Lexes false tokens r := by
  cases h with
  | nil => exact ⟨[], [], rfl, spacing_nil, .nil, .nil⟩
  | space nonempty spacing whole apart further => exact ⟨_, _, rfl, spacing, whole, further⟩
  | symbol isSymbol further =>
      exact ⟨[], _, rfl, spacing_nil, .cons (Combinator.isNameChar_of_ofSymbol? isSymbol).1,
        .symbol isSymbol further⟩
  | operand word whole further =>
      obtain ⟨c, r, rfl, hspace, -⟩ := word.exists_cons
      exact ⟨[], _, rfl, spacing_nil, .cons hspace, .operand word whole further⟩

/-- Words hold their tokens before anything that no name goes on into. -/
theorem Words.lexes_append {left more : List Token} {w t : Text} (h : Words left w)
    (ht : t.Stops isNameChar) (hmore : Lexes true more t) (hne : left ≠ []) (b : Bool) :
    Lexes b (left ++ more) (w ++ t) := by
  induction h generalizing b with
  | nil => exact absurd rfl hne
  | @cons token tokens w r word whole further ih =>
      rw [List.cons_append, List.append_assoc]
      refine .operand word (fun hname => (whole hname).append ht) ?_
      cases tokens with
      | nil =>
          obtain rfl : r = [] := further.eq_nil_iff.mpr rfl
          exact hmore
      | cons other tokens => exact ih (by simp) true

/-- A text that starts with space does not start otherwise. -/
theorem not_stops_of_spacing {g t : Text} (hne : g ≠ []) (hg : Spacing g) :
    ¬ Text.Stops Text.isSpace (g ++ t) := by
  intro hstops
  obtain ⟨c, g, rfl⟩ := List.exists_cons_of_ne_nil hne
  have hc := hg c (by simp)
  rw [hstops.of_append.of_cons] at hc
  cases hc

/-- An operand that is the first token stands at the start of the text, unless space stands there
that is nothing. -/
theorem exists_word_of_lexes {b : Bool} {token : Token} {tokens : List Token} {t : Text}
    (hoperand : token.isCombinator = false) (hstart : b = true ∨ t.Stops Text.isSpace)
    (h : Lexes b (token :: tokens) t) :
    ∃ w r, t = w ++ r ∧ token.Word w ∧ (token.endsInName = true → r.Stops isNameChar) ∧
      Lexes true tokens r := by
  cases h with
  | descendant => cases hoperand
  | symbol => cases hoperand
  | operand word whole further => exact ⟨_, _, rfl, word, whole, further⟩
  | space nonempty spacing first apart further =>
      -- behind an operand this space would be the descendant combinator
      rcases hstart with rfl | hstart
      · cases further with
        | descendant => cases hoperand
        | symbol => cases hoperand
        | space nonempty' spacing' _ _ _ =>
            exact absurd first (not_stops_of_spacing nonempty' spacing')
        | operand word whole further =>
            obtain ⟨c, r, rfl, -, hsymbol⟩ := word.exists_cons
            simp [startsOperand, hsymbol] at apart
      · exact absurd hstart (not_stops_of_spacing nonempty spacing)

/-- Operands that are the first tokens are words at the start of the text. -/
theorem exists_words_of_lexes {b : Bool} {left more : List Token} {t : Text}
    (hoperands : ∀ token ∈ left, token.isCombinator = false)
    (hstart : b = true ∨ t.Stops Text.isSpace) (h : Lexes b (left ++ more) t) (hne : left ≠ []) :
    ∃ w r, t = w ++ r ∧ Words left w ∧ Lexes true more r := by
  induction left generalizing b t with
  | nil => exact absurd rfl hne
  | cons token left ih =>
      obtain ⟨w, r, rfl, hword, hwhole, hfurther⟩ :=
        exists_word_of_lexes (hoperands token (by simp)) hstart h
      cases left with
      | nil => exact ⟨w, r, rfl, by simpa using Words.cons hword (fun _ => .nil) .nil, hfurther⟩
      | cons other left =>
          obtain ⟨w', r', rfl, hwords, hmore⟩ :=
            ih (fun other hother => hoperands other (by simp [hother])) (.inl rfl) hfurther
              (by simp)
          exact ⟨w ++ w', r', by simp, .cons hword (fun hname => (hwhole hname).of_append) hwords,
            hmore⟩

/-- A combinator that is the first token is spelled at the start of the text, with all space on
both its sides. -/
theorem exists_combinator_of_lexes {c : Combinator} {tokens : List Token} {t : Text}
    (h : Lexes true (.combinator c :: tokens) t) :
    ∃ between r, t = between ++ r ∧ c.Spelling between ∧ r.Stops Text.isSpace ∧
      Lexes false tokens r := by
  have hsymbol : ∀ {b : Bool} {t : Text}, t.Stops Text.isSpace →
      Lexes b (.combinator c :: tokens) t →
      ∃ x r, t = x :: r ∧ c.Symbol x ∧ Lexes false tokens r := by
    intro b t hstart h
    cases h with
    | descendant nonempty spacing =>
        exact absurd hstart (not_stops_of_spacing nonempty spacing)
    | space nonempty spacing => exact absurd hstart (not_stops_of_spacing nonempty spacing)
    | symbol isSymbol further =>
        exact ⟨_, _, rfl, Combinator.ofSymbol?_eq_some_iff.mp isSymbol, further⟩
    | operand word => cases word.isCombinator
  cases h with
  | descendant nonempty spacing whole between further =>
      exact ⟨_, _, rfl, .descendant nonempty spacing, whole, further⟩
  | operand word => cases word.isCombinator
  | symbol isSymbol further =>
      obtain ⟨g, r, rfl, hg, hr, htokens⟩ := exists_spacing_of_lexes further
      have hsymbol := Combinator.ofSymbol?_eq_some_iff.mp isSymbol
      exact ⟨[] ++ _ :: g, r, by simp, .symbol hsymbol spacing_nil hg, hr, htokens⟩
  | space nonempty spacing whole apart further =>
      obtain ⟨x, r, rfl, isSymbol, hfurther⟩ := hsymbol whole further
      obtain ⟨g, r, rfl, hg, hr, htokens⟩ := exists_spacing_of_lexes hfurther
      exact ⟨_ ++ x :: g, r, by simp, .symbol isSymbol spacing hg, hr, htokens⟩

/-! ### Chains -/

/-- A text that holds the tokens of a chain is the chain's spelling and some space. -/
theorem exists_spelling_of_reads {tokens : List Token} {head : Simple}
    {rest : List (Combinator × Simple)} (h : Selector.Reads tokens head rest) {t : Text}
    (hstart : t.Stops Text.isSpace) (hlexes : Lexes false tokens t) :
    ∃ w r after, t = w ++ (r ++ after) ∧ head.Spelling w ∧ ChainSpelling rest r ∧
      Spacing after := by
  induction h generalizing t with
  | @single tokens s nonempty operands read =>
      rw [← List.append_nil tokens] at hlexes
      obtain ⟨w, after, rfl, hwords, hspace⟩ :=
        exists_words_of_lexes operands (.inr hstart) hlexes nonempty
      exact ⟨w, [], after, rfl, Simple.spelling_iff.mpr ⟨_, nonempty, hwords, read⟩, .nil,
        spacing_of_lexes hspace rfl⟩
  | step nonempty operands read further ih =>
      obtain ⟨w, r, rfl, hwords, hcombinator⟩ :=
        exists_words_of_lexes operands (.inr hstart) hlexes nonempty
      obtain ⟨between, r, rfl, hbetween, hright, hlexes⟩ := exists_combinator_of_lexes hcombinator
      obtain ⟨w', r', after, rfl, hspelled, hchain, hafter⟩ := ih hright hlexes
      exact ⟨w, between ++ (w' ++ r'), after, by simp,
        Simple.spelling_iff.mpr ⟨_, nonempty, hwords, read⟩, .cons hbetween hspelled hchain,
        hafter⟩

/-- A combinator's spelling starts with space or a symbol, which no name goes on into. -/
theorem Combinator.Spelling.stops {c : Combinator} {between : Text} (h : c.Spelling between)
    (t : Text) : Text.Stops isNameChar (between ++ t) := by
  cases h with
  | descendant nonempty spacing =>
      exact (stops_isNameChar_of_spacing spacing).append_of_ne_nil nonempty
  | symbol isSymbol before after =>
      rw [List.append_assoc]
      exact (stops_isNameChar_of_spacing before).append
        (.cons (Combinator.isNameChar_of_ofSymbol? (ofSymbol?_eq_some_iff.mpr isSymbol)).2)

/-- Between operands a combinator's spelling holds the combinator. -/
theorem Combinator.Spelling.lexes {c : Combinator} {between : Text} (h : c.Spelling between)
    {tokens : List Token} {x : Char} {t : Text} (hspace : Text.isSpace x = false)
    (hoperand : ofSymbol? x = none) (hlexes : Lexes false tokens (x :: t)) :
    Lexes true (.combinator c :: tokens) (between ++ x :: t) := by
  cases h with
  | descendant nonempty spacing =>
      exact .descendant nonempty spacing (.cons hspace) (by simp [startsOperand, hoperand]) hlexes
  | symbol isSymbol before after =>
      rw [List.append_assoc, List.cons_append]
      have hread := ofSymbol?_eq_some_iff.mpr isSymbol
      have hsymbol := Combinator.isNameChar_of_ofSymbol? hread
      refine lexes_spacing_append before (.cons hsymbol.1) (by simp [startsOperand, hread]) ?_
      exact .symbol hread (lexes_spacing_append after (.cons hspace) rfl hlexes)

/-- A simple selector's spelling starts with a character that is neither space nor a symbol. -/
theorem Simple.Spelling.exists_cons {s : Simple} {w : Text} (h : s.Spelling w) :
    ∃ c r, w = c :: r ∧ Text.isSpace c = false ∧ Combinator.ofSymbol? c = none := by
  obtain ⟨tokens, hne, hwords, -⟩ := Simple.spelling_iff.mp h
  exact hwords.exists_cons hne

/-- A chain is read from the tokens that its spelling holds. -/
theorem ChainSpelling.exists_reads {rest : List (Combinator × Simple)} {r after : Text}
    (h : ChainSpelling rest r) (hafter : Spacing after) {head : Simple} {w : Text}
    (hw : head.Spelling w) :
    ∃ tokens, Selector.Reads tokens head rest ∧ ∀ b, Lexes b tokens (w ++ (r ++ after)) := by
  obtain ⟨left, hne, hwords, hread⟩ := Simple.spelling_iff.mp hw
  induction h generalizing head w left with
  | nil =>
      have hstops := stops_isNameChar_of_spacing hafter
      refine ⟨left, .single hne hwords.isCombinator hread, fun b => ?_⟩
      simpa using hwords.lexes_append hstops (lexes_of_spacing hafter) hne b
  | @cons c s rest between w' r separated spelled further ih =>
      obtain ⟨left', hne', hwords', hread'⟩ := Simple.spelling_iff.mp spelled
      obtain ⟨tokens, hreads, hlexes⟩ := ih spelled left' hne' hwords' hread'
      obtain ⟨x, w', rfl, hspace, hoperand⟩ := spelled.exists_cons
      refine ⟨left ++ .combinator c :: tokens, .step hne hwords.isCombinator hread hreads,
        fun b => ?_⟩
      have hcombinator := separated.lexes hspace hoperand (hlexes false)
      have hjoin := hwords.lexes_append (separated.stops _) hcombinator hne b
      simpa using hjoin

/-! ### Clauses -/

namespace Selector

/-- A clause that is read as a selector spells it. -/
theorem spelling_of_parse {clause : Text} {s : Selector} (h : parse clause = .ok s) :
    s.Spelling clause := by
  unfold parse at h
  split at h
  · cases h
  · cases h
  · rename_i tokens hne htokens
    have hreads := (ofTokens_eq_ok_iff hne).mp h
    obtain ⟨before, t, rfl, hbefore, hstart, hlexes⟩ :=
      exists_spacing_of_lexes (tokenize_eq_ok_iff.mp htokens)
    obtain ⟨w, r, after, rfl, hspelled, hchain, hafter⟩ :=
      exists_spelling_of_reads hreads hstart hlexes
    exact ⟨before, w, r, after, rfl, hbefore, hspelled, hchain, hafter⟩

/-- A clause that spells a selector holds tokens from which the selector is read. -/
theorem Spelling.exists_reads {clause : Text} {s : Selector} (h : s.Spelling clause) :
    ∃ tokens, Lexes false tokens clause ∧ Reads tokens s.head s.rest := by
  obtain ⟨before, w, r, after, rfl, hbefore, hspelled, hchain, hafter⟩ := h
  obtain ⟨tokens, hreads, hlexes⟩ := hchain.exists_reads hafter hspelled
  obtain ⟨c, w, rfl, hspace, -⟩ := hspelled.exists_cons
  exact ⟨tokens, lexes_spacing_append hbefore (.cons hspace) rfl (hlexes false), hreads⟩

/-- A clause that spells a selector is read as it. -/
theorem parse_of_spelling {clause : Text} {s : Selector} (h : s.Spelling clause) :
    parse clause = .ok s := by
  obtain ⟨tokens, hlexes, hreads⟩ := h.exists_reads
  have hne : tokens ≠ [] := by
    rintro rfl
    cases hreads.lacksOperand_eq_false
  obtain ⟨token, tokens, rfl⟩ := List.exists_cons_of_ne_nil hne
  rw [parse, tokenize_eq_ok_iff.mpr hlexes]
  exact ofTokens_of_reads hreads

/-- **A clause is read as a selector exactly if it spells it**, so nothing outside the grammar is
accepted, and no spelling is refused or read as another selector. -/
theorem parse_eq_ok_iff_spelling (clause : Text) (s : Selector) :
    parse clause = .ok s ↔ s.Spelling clause :=
  ⟨spelling_of_parse, parse_of_spelling⟩

end Selector

end TreeSelect
