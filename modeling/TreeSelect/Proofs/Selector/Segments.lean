import Mathlib.Data.List.Forall2
import TreeSelect.Proofs.Selector.Parsing
/-!
# Which fault of a chain is reported

The combinators cut the tokens of a chain into segments, and the chain is read exactly if every
segment has a token and is read as a simple selector. A chain may have several faults. The reader
looks for missing operands on its way to the right and reads the segments on its way back, so what
it reports follows two rules: the first missing operand comes before everything else, and among
malformed segments the last one is reported.

## Main definitions

* `Segments`, `Segments.ofTokens`, `Segments.tokens`: tokens cut at their combinators, and joined.
* `Segments.ReadAs`: the selector that the segments make up.
* `Segments.Lacks`, `Segments.Fails`: the first missing operand, and the last malformed segment.

## Main statements

* `Selector.exists_ofTokens_eq_ok_iff`, `Selector.ofTokens_eq_missingOperand_iff`,
  `Selector.ofTokens_eq_error_iff_fails`: the three ways in which reading ends.
* `Selector.ofTokens_by_segments`: **what a chain is read as, or which fault is reported.**
-/

namespace TreeSelect

/-- Tokens cut at their combinators. -/
structure Segments where
  /-- The tokens before the first combinator. -/
  head : List Token
  /-- Each combinator with the tokens between it and the next one. -/
  rest : List (Combinator × List Token) := []
deriving DecidableEq, Repr

namespace Segments

/-- Cuts tokens at their combinators. -/
def ofTokens : List Token → Segments
  | [] => ⟨[], []⟩
  | .combinator c :: tokens =>
    let cut := ofTokens tokens
    ⟨[], (c, cut.head) :: cut.rest⟩
  | token :: tokens =>
    let cut := ofTokens tokens
    ⟨token :: cut.head, cut.rest⟩

/-- The tokens that were cut. -/
def tokens (cut : Segments) : List Token :=
  cut.head ++ cut.rest.flatMap fun (c, segment) => .combinator c :: segment

/-- The segments from left to right. -/
def all (cut : Segments) : List (List Token) :=
  cut.head :: cut.rest.map Prod.snd

/-- The combinators from left to right. -/
def combinators (cut : Segments) : List Combinator :=
  cut.rest.map Prod.fst

/-- No combinator is left in a segment. -/
def Operands (cut : Segments) : Prop :=
  ∀ segment ∈ cut.all, ∀ token ∈ segment, token.isCombinator = false

/-- A selector has the combinators of a cut, and each of its simple selectors is read from the
segment at its place. -/
def ReadAs (cut : Segments) (s : Selector) : Prop :=
  cut.combinators = s.combinators ∧
    List.Forall₂ (fun segment simple => Simple.ofTokens segment = .ok simple) cut.all s.simples

/-- A combinator is the first that lacks an operand: the first segment is empty and the combinator
is the first one, or it stands before the first empty segment. -/
def Lacks (cut : Segments) (c : Combinator) : Prop :=
  (cut.head = [] ∧ ∃ segment after, cut.rest = (c, segment) :: after) ∨
    cut.head ≠ [] ∧ ∃ before after, cut.rest = before ++ (c, []) :: after ∧
      ∀ step ∈ before, step.2 ≠ []

/-- The last segment that is not read as a simple selector fails with a given error. -/
def Fails (cut : Segments) (e : ClauseError) : Prop :=
  ∃ before segment after, cut.all = before ++ segment :: after ∧
    Simple.ofTokens segment = .error e ∧
      ∀ other ∈ after, ∃ simple, Simple.ofTokens other = .ok simple

/-! ### Cutting -/

variable {left right head segment : List Token} {c : Combinator}
  {rest : List (Combinator × List Token)}

/-- The tokens of a longer cut are its head, a combinator and the tokens of its remainder. -/
theorem tokens_cons :
    tokens ⟨head, (c, segment) :: rest⟩ = head ++ .combinator c :: tokens ⟨segment, rest⟩ := by
  simp [tokens]

/-- Operands before some tokens belong to the first segment. -/
theorem ofTokens_append (h : ∀ token ∈ left, token.isCombinator = false) (right : List Token) :
    ofTokens (left ++ right) = ⟨left ++ (ofTokens right).head, (ofTokens right).rest⟩ := by
  induction left with
  | nil => rfl
  | cons token left ih =>
      have hfurther := ih fun other hother => h other (List.mem_cons_of_mem _ hother)
      cases token with
      | combinator c => cases h (.combinator c) List.mem_cons_self
      | _ => simp [ofTokens, hfurther]

/-- Operands alone are one segment. -/
theorem ofTokens_of_operands (h : ∀ token ∈ left, token.isCombinator = false) :
    ofTokens left = ⟨left, []⟩ := by
  simpa [ofTokens] using ofTokens_append h []

/-- Behind the operands at the start of some tokens they are cut. -/
theorem ofTokens_append_cons (h : ∀ token ∈ left, token.isCombinator = false) (c : Combinator)
    (right : List Token) :
    ofTokens (left ++ .combinator c :: right) =
      ⟨left, (c, (ofTokens right).head) :: (ofTokens right).rest⟩ := by
  simp [ofTokens_append h, ofTokens]

/-- Cutting loses nothing. -/
theorem tokens_ofTokens (l : List Token) : (ofTokens l).tokens = l := by
  induction l with
  | nil => rfl
  | cons token l ih =>
      cases token with
      | combinator c => rw [ofTokens, tokens_cons, ih, List.nil_append]
      | _ => simpa [ofTokens, tokens] using ih

/-- Tokens are cut at every combinator. -/
theorem operands_ofTokens (l : List Token) : (ofTokens l).Operands := by
  induction l with
  | nil => simp [ofTokens, Operands, all]
  | cons token l ih =>
      simp only [Operands, all, List.forall_mem_cons] at ih ⊢
      cases token with
      | combinator c => exact ⟨List.forall_mem_nil _, List.forall_mem_cons.mpr ih⟩
      | _ => exact ⟨List.forall_mem_cons.mpr ⟨rfl, ih.1⟩, ih.2⟩

/-- The segments behind the first one are those of a shorter cut. -/
theorem Operands.tail (h : Operands ⟨head, (c, segment) :: rest⟩) : Operands ⟨segment, rest⟩ :=
  fun other hother => h other (List.mem_cons_of_mem _ hother)

/-- The reader finds an operand missing exactly if a segment beside the first combinator is
empty. -/
theorem Operands.missing_iff (h : Operands ⟨head, (c, segment) :: rest⟩) :
    (head.isEmpty || lacksOperand (tokens ⟨segment, rest⟩)) = true ↔ head = [] ∨ segment = [] := by
  have hlacks : lacksOperand (tokens ⟨segment, rest⟩) = true ↔ segment = [] := by
    cases segment with
    | nil => cases rest <;> simp [tokens, lacksOperand, Token.isCombinator]
    | cons token segment =>
        have htoken : token.isCombinator = false :=
          h.tail _ List.mem_cons_self token List.mem_cons_self
        simp [tokens, lacksOperand, htoken]
  rw [Bool.or_eq_true, List.isEmpty_iff, hlacks]

/-- The tokens of a longer cut are cut behind its head. -/
theorem Operands.cutAtCombinator_tokens (h : Operands ⟨head, (c, segment) :: rest⟩) :
    cutAtCombinator (tokens ⟨head, (c, segment) :: rest⟩) =
      (head, some (c, tokens ⟨segment, rest⟩)) := by
  rw [tokens_cons, cutAtCombinator_append_cons (h head List.mem_cons_self)]

/-! ### Faults -/

/-- Among some outcomes there is a last failure, unless all succeed. -/
theorem forall_ok_or_exists_last_error {α β ε : Type} (f : α → Except ε β) (l : List α) :
    (∀ a ∈ l, ∃ b, f a = .ok b) ∨
      ∃ e before a after, l = before ++ a :: after ∧ f a = .error e ∧
        ∀ other ∈ after, ∃ b, f other = .ok b := by
  induction l with
  | nil => exact .inl (List.forall_mem_nil _)
  | cons a l ih =>
      obtain hall | ⟨e, before, a', after, rfl, he, hafter⟩ := ih
      · cases ha : f a with
        | ok b => exact .inl (List.forall_mem_cons.mpr ⟨⟨b, ha⟩, hall⟩)
        | error e => exact .inr ⟨e, [], a, l, rfl, ha, hall⟩
      · exact .inr ⟨e, a :: before, a', after, rfl, he, hafter⟩

/-- Where some segment is empty, a combinator lacks an operand. -/
theorem exists_lacks {cut : Segments} (hne : cut.tokens ≠ []) (h : [] ∈ cut.all) :
    ∃ c, cut.Lacks c := by
  obtain ⟨head, rest⟩ := cut
  by_cases hhead : head = []
  · subst hhead
    cases rest with
    | nil => exact absurd rfl hne
    | cons step rest => exact ⟨step.1, .inl ⟨rfl, step.2, rest, rfl⟩⟩
  · obtain ⟨step, hstep, hempty⟩ : ∃ step ∈ rest, step.2 = [] := by
      simpa [all, Ne.symm hhead] using h
    have hfound : (rest.find? fun step => step.2.isEmpty).isSome = true :=
      List.find?_isSome.mpr ⟨step, hstep, by simp [hempty]⟩
    obtain ⟨⟨c, first⟩, hfirst⟩ := Option.isSome_iff_exists.mp hfound
    obtain ⟨hnil, before, after, rfl, hbefore⟩ := List.find?_eq_some_iff_append.mp hfirst
    obtain rfl : first = [] := by simpa using hnil
    exact ⟨c, .inr ⟨hhead, before, after, rfl, fun step hstep => by simpa using hbefore step hstep⟩⟩

end Segments

/-! ### Simple selectors -/

/-- **No operand is missing within a segment**: a simple selector asks for none. -/
theorem Simple.ofTokensFrom_ne_missingOperand {p : Progress} {tokens : List Token}
    (h : ∀ token ∈ tokens, token.isCombinator = false) (c : Combinator) :
    ofTokensFrom p tokens ≠ .error (.missingOperand c) := by
  induction tokens generalizing p with
  | nil => simp [ofTokensFrom]
  | cons token tokens ih =>
      have hfurther := fun q : Progress =>
        ih (p := q) fun other hother => h other (List.mem_cons_of_mem _ hother)
      have htype : ∀ type, token.type? = some type →
          ofTokensFrom p (token :: tokens) ≠ .error (.missingOperand c) := by
        intro type stands
        rw [ofTokensFrom_type stands]
        split
        · simp
        · split
          · exact fun hmap => hfurther _ (map_eq_error_iff.mp hmap)
          · simp
      cases token with
      | name n => exact htype _ rfl
      | universal => exact htype _ rfl
      | combinator d => cases h (.combinator d) List.mem_cons_self
      | bracketed clause =>
          rw [ofTokensFrom]
          exact fun hmap => hfurther _ (map_eq_error_iff.mp hmap)
      | id n =>
          simp only [ofTokensFrom]
          split
          · simp
          · split
            · simp
            · exact fun hmap => hfurther _ (map_eq_error_iff.mp hmap)
      | className n =>
          simp only [ofTokensFrom]
          split
          · simp
          · exact fun hmap => hfurther _ (map_eq_error_iff.mp hmap)

/-! ### Chains -/

namespace Selector

open Segments

variable {head segment : List Token} {c : Combinator} {rest : List (Combinator × List Token)}

/-- A combinator with an empty segment on one of its sides is reported. -/
theorem ofTokens_of_missing (h : Operands ⟨head, (c, segment) :: rest⟩)
    (hmissing : head = [] ∨ segment = []) :
    ofTokens (tokens ⟨head, (c, segment) :: rest⟩) = .error (.missingOperand c) := by
  rw [ofTokens_of_cut_some h.cutAtCombinator_tokens, if_pos (h.missing_iff.mpr hmissing)]

/-- With both operands there, the reader goes on to the right, and a fault there is reported. -/
theorem ofTokens_of_right_error {e : ClauseError} (h : Operands ⟨head, (c, segment) :: rest⟩)
    (hhead : head ≠ []) (hsegment : segment ≠ [])
    (hright : ofTokens (tokens ⟨segment, rest⟩) = .error e) :
    ofTokens (tokens ⟨head, (c, segment) :: rest⟩) = .error e := by
  have hboth := mt h.missing_iff.mp (not_or.mpr ⟨hhead, hsegment⟩)
  rw [ofTokens_of_cut_some h.cutAtCombinator_tokens, if_neg hboth, hright]

/-- With both operands there and the right one read, a malformed head is reported. -/
theorem ofTokens_of_head_error {e : ClauseError} {chain : Selector}
    (h : Operands ⟨head, (c, segment) :: rest⟩) (hhead : head ≠ []) (hsegment : segment ≠ [])
    (hright : ofTokens (tokens ⟨segment, rest⟩) = .ok chain)
    (herror : Simple.ofTokens head = .error e) :
    ofTokens (tokens ⟨head, (c, segment) :: rest⟩) = .error e := by
  have hboth := mt h.missing_iff.mp (not_or.mpr ⟨hhead, hsegment⟩)
  rw [ofTokens_of_cut_some h.cutAtCombinator_tokens, if_neg hboth, hright, herror]
  rfl

/-- **The first missing operand is reported**, whatever else is wrong. -/
theorem ofTokens_of_lacks (h : Operands ⟨head, rest⟩) (hlacks : Lacks ⟨head, rest⟩ c) :
    ofTokens (tokens ⟨head, rest⟩) = .error (.missingOperand c) := by
  obtain ⟨rfl, segment, after, rfl⟩ | ⟨hhead, before, after, rfl, hbefore⟩ := hlacks
  · exact ofTokens_of_missing h (.inl rfl)
  · -- the reader passes the combinators before it, since both their operands are there
    induction before generalizing head with
    | nil => exact ofTokens_of_missing h (.inr rfl)
    | cons step before ih =>
        obtain ⟨hsegment, hfurther⟩ := List.forall_mem_cons.mp hbefore
        exact ofTokens_of_right_error h hhead hsegment (ih hfurther h.tail hsegment)

/-- A chain is read from segments that all have a token and are read as simple selectors. -/
theorem exists_reads (h : Operands ⟨head, rest⟩) (hne : [] ∉ all ⟨head, rest⟩)
    (hread : ∀ segment ∈ all ⟨head, rest⟩, ∃ simple, Simple.ofTokens segment = .ok simple) :
    ∃ first steps, Reads (tokens ⟨head, rest⟩) first steps := by
  induction rest generalizing head with
  | nil =>
      obtain ⟨simple, hsimple⟩ := hread head List.mem_cons_self
      have hhead := (List.ne_and_not_mem_of_not_mem_cons hne).1.symm
      have hreads := Reads.single hhead (h head List.mem_cons_self) hsimple
      exact ⟨simple, [], by simpa [tokens] using hreads⟩
  | cons step rest ih =>
      obtain ⟨c, segment⟩ := step
      obtain ⟨⟨simple, hsimple⟩, hfurther⟩ := List.forall_mem_cons.mp hread
      obtain ⟨hhead, htail⟩ := List.ne_and_not_mem_of_not_mem_cons hne
      obtain ⟨first, steps, hreads⟩ := ih h.tail htail hfurther
      have hjoin := Reads.step (c := c) hhead.symm (h head List.mem_cons_self) hsimple hreads
      exact ⟨simple, (c, first) :: steps, by rwa [tokens_cons]⟩

/-- The segments of the tokens from which a chain is read all have a token, and they are read as
the simple selectors of the chain. -/
theorem Reads.readAs {l : List Token} {first : Simple} {steps : List (Combinator × Simple)}
    (h : Reads l first steps) :
    [] ∉ (Segments.ofTokens l).all ∧ (Segments.ofTokens l).ReadAs ⟨first, steps⟩ := by
  induction h with
  | single nonempty operands read =>
      rw [ofTokens_of_operands operands]
      exact ⟨by simpa [all] using nonempty.symm, rfl, .cons read .nil⟩
  | step nonempty operands read further ih =>
      obtain ⟨hne, hcombinators, hsimples⟩ := ih
      rw [ofTokens_append_cons operands]
      refine ⟨?_, congrArg (_ :: ·) hcombinators, .cons read hsimples⟩
      exact List.not_mem_cons_of_ne_of_not_mem nonempty.symm hne

/-- **The last malformed segment is reported** if no operand is missing. -/
theorem ofTokens_of_fails {e : ClauseError} (h : Operands ⟨head, rest⟩)
    (hne : [] ∉ all ⟨head, rest⟩) (hfails : Fails ⟨head, rest⟩ e) :
    ofTokens (tokens ⟨head, rest⟩) = .error e := by
  obtain ⟨before, segment, after, hsplit, herror, hafter⟩ := hfails
  induction before generalizing head rest with
  | nil =>
      -- everything to the right of the head is read
      obtain ⟨rfl, rfl⟩ := List.cons.inj hsplit
      obtain ⟨hhead, htail⟩ := List.ne_and_not_mem_of_not_mem_cons hne
      cases rest with
      | nil =>
          have hcut := cutAtCombinator_of_operands (h _ List.mem_cons_self)
          rw [tokens, List.flatMap_nil, List.append_nil, ofTokens_of_cut_none hcut, herror]
          rfl
      | cons step rest =>
          obtain ⟨first, steps, hreads⟩ := exists_reads h.tail htail hafter
          have hnext := (List.ne_and_not_mem_of_not_mem_cons htail).1
          exact ofTokens_of_head_error h hhead.symm hnext.symm (ofTokens_of_reads hreads) herror
  | cons other before ih =>
      obtain ⟨hhead, htail⟩ := List.ne_and_not_mem_of_not_mem_cons hne
      cases rest with
      | nil => cases before <;> cases (List.cons.inj hsplit).2
      | cons step rest =>
          have hnext := (List.ne_and_not_mem_of_not_mem_cons htail).1
          have hright := ih h.tail htail (List.cons.inj hsplit).2
          exact ofTokens_of_right_error h hhead.symm hnext.symm hright

/-! ### All outcomes -/

variable {l : List Token}

/-- Tokens are read exactly if every segment has a token and is read as a simple selector. -/
theorem exists_ofTokens_eq_ok_iff (hl : l ≠ []) :
    (∃ s, ofTokens l = .ok s) ↔ [] ∉ (Segments.ofTokens l).all ∧
      ∀ segment ∈ (Segments.ofTokens l).all, ∃ simple, Simple.ofTokens segment = .ok simple := by
  constructor
  · rintro ⟨s, hs⟩
    obtain ⟨hne, -, hsimples⟩ := (reads_of_ofTokens hl hs).readAs
    have hread := hsimples.imp fun segment simple hread =>
      And.intro (⟨simple, hread⟩ : ∃ simple, Simple.ofTokens segment = .ok simple) hread
    exact ⟨hne, ((List.forall₂_and_left _ _).mp hread).1⟩
  · rintro ⟨hne, hread⟩
    obtain ⟨first, steps, hreads⟩ := exists_reads (operands_ofTokens l) hne hread
    rw [tokens_ofTokens] at hreads
    exact ⟨_, ofTokens_of_reads hreads⟩

/-- If every segment has a token, what is reported is the fault of the last malformed one. -/
theorem ofTokens_eq_error_iff_fails (hl : l ≠ []) (hne : [] ∉ (Segments.ofTokens l).all)
    {e : ClauseError} : ofTokens l = .error e ↔ (Segments.ofTokens l).Fails e := by
  have hreport : ∀ {e}, (Segments.ofTokens l).Fails e → ofTokens l = .error e := by
    intro e hfails
    have herror := ofTokens_of_fails (operands_ofTokens l) hne hfails
    rwa [tokens_ofTokens] at herror
  refine ⟨fun herror => ?_, hreport⟩
  rcases forall_ok_or_exists_last_error Simple.ofTokens (Segments.ofTokens l).all with
    hread | ⟨other, hfails⟩
  · obtain ⟨s, hs⟩ := (exists_ofTokens_eq_ok_iff hl).mpr ⟨hne, hread⟩
    rw [hs] at herror
    cases herror
  · rw [hreport hfails] at herror
    cases herror
    exact hfails

/-- A missing operand is reported exactly if it is the first one. -/
theorem ofTokens_eq_missingOperand_iff (hl : l ≠ []) :
    ofTokens l = .error (.missingOperand c) ↔ (Segments.ofTokens l).Lacks c := by
  have hreport : ∀ {c}, (Segments.ofTokens l).Lacks c →
      ofTokens l = .error (.missingOperand c) := by
    intro c hlacks
    have herror := ofTokens_of_lacks (operands_ofTokens l) hlacks
    rwa [tokens_ofTokens] at herror
  refine ⟨fun herror => ?_, hreport⟩
  by_cases hne : [] ∈ (Segments.ofTokens l).all
  · obtain ⟨d, hlacks⟩ := exists_lacks ((tokens_ofTokens l).symm ▸ hl) hne
    rw [hreport hlacks] at herror
    cases herror
    exact hlacks
  · -- no segment by itself lacks an operand, so none can fail in this way
    obtain ⟨before, segment, after, hsplit, hsegment, -⟩ :=
      (ofTokens_eq_error_iff_fails hl hne).mp herror
    have hmem : segment ∈ (Segments.ofTokens l).all := by simp [hsplit]
    exact absurd hsegment
      (Simple.ofTokensFrom_ne_missingOperand (operands_ofTokens l segment hmem) c)

/-- **What a chain is read as, or which fault is reported.** Some tokens are cut at their
combinators. They are read exactly if every segment has a token and is read as a simple selector,
and then these simple selectors and the combinators are the chain. If some segment is empty, an
operand is missing, and what is reported is the first missing operand, whatever else is wrong.
Otherwise it is the fault of the last malformed segment. No segment by itself lacks an operand. -/
theorem ofTokens_by_segments {l : List Token} (hl : l ≠ []) :
    let cut := Segments.ofTokens l
    (cut.tokens = l ∧ cut.Operands) ∧
      ((∃ s, ofTokens l = .ok s) ↔ [] ∉ cut.all ∧
        ∀ segment ∈ cut.all, ∃ simple, Simple.ofTokens segment = .ok simple) ∧
      (∀ s, ofTokens l = .ok s → cut.ReadAs s) ∧
      ([] ∈ cut.all → ∃ c, cut.Lacks c) ∧
      (∀ c, ofTokens l = .error (.missingOperand c) ↔ cut.Lacks c) ∧
      ([] ∉ cut.all → ∀ e, ofTokens l = .error e ↔ cut.Fails e) ∧
      ∀ segment ∈ cut.all, ∀ c, Simple.ofTokens segment ≠ .error (.missingOperand c) := by
  intro cut
  have hjoin : cut.tokens = l := tokens_ofTokens l
  have hoperands : cut.Operands := operands_ofTokens l
  refine ⟨⟨hjoin, hoperands⟩, exists_ofTokens_eq_ok_iff hl, fun s hs => ?_,
    exists_lacks (hjoin.symm ▸ hl), fun c => ofTokens_eq_missingOperand_iff hl,
    fun hne e => ofTokens_eq_error_iff_fails hl hne, fun segment hmem c => ?_⟩
  · exact (reads_of_ofTokens hl hs).readAs.2
  · exact Simple.ofTokensFrom_ne_missingOperand (hoperands segment hmem) c

/-- The tokens of `#a#b > p + ~ .x p` with some more between `+` and `~`. The first segment has two
ids, and in the last a type stands behind a class. -/
def manyFaults (between : List Token) : List Token :=
  [.id ['a'], .id ['b'], .combinator .child, .name ['p'], .combinator .nextSibling] ++
    between ++ [.combinator .subsequentSibling, .className ['x'], .name ['p']]

/-- With nothing behind `+` the missing operand is reported, and with a name behind it the fault
that stands further to the right. -/
theorem ofTokens_by_segments_manyFaults :
    manyFaults [] ≠ [] ∧ manyFaults [.name ['q']] ≠ [] ∧
      ofTokens (manyFaults []) = .error (.missingOperand .nextSibling) ∧
      ofTokens (manyFaults [.name ['q']]) = .error (.misplacedType ['p']) := by
  have hempty : manyFaults [] ≠ [] := by decide
  have hfull : manyFaults [.name ['q']] ≠ [] := by decide
  obtain ⟨-, -, -, -, hmissing, -, -⟩ := ofTokens_by_segments hempty
  obtain ⟨-, -, -, -, -, hmalformed, -⟩ := ofTokens_by_segments hfull
  refine ⟨hempty, hfull, (hmissing .nextSibling).mpr ?_, (hmalformed (by decide) _).mpr ?_⟩
  · exact .inr ⟨by decide, [_], [_], rfl, by decide⟩
  · exact ⟨[_, _, _], _, [], rfl, rfl, List.forall_mem_nil _⟩

end Selector

end TreeSelect
