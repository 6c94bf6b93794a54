import TreeSelect.Proofs.Selector.Parsing
/-!
# What trimming may cost

Blanks beyond ASCII are name characters, and blanks are trimmed off the ends of a clause. A clause
that ends in such a blank therefore loses a part of a name. The names of a selector can be measured:
a clause and the same clause with more name characters at its end never spell the same selector.

## Main definitions

* `Simple.nameText`, `Selector.nameText`: the types, ids and classes, one behind the other.

## Main statements

* `Selector.Reads.length_nameTexts`: the tokens of a selector have its names.
* `Selector.Spelling.not_append`: more name characters at the end spell another selector.
-/

namespace TreeSelect

/-! ### Names -/

/-- The name in a token that stands for a type, an id or a class. -/
def Token.nameText : Token → Text
  | name n => n
  | id n => n
  | className n => n
  | _ => []

/-- The names in some tokens, one behind the other. -/
def nameTexts (tokens : List Token) : Text :=
  tokens.flatMap Token.nameText

/-- The name of a type. -/
def TypeSelector.nameText : TypeSelector → Text
  | universal => []
  | named n => n

/-- The names of a simple selector, one behind the other. -/
def Simple.nameText (s : Simple) : Text :=
  (s.tag.map TypeSelector.nameText).getD [] ++ s.id.getD [] ++ s.classes.flatten

/-- The names of a chain, one behind the other. -/
def Selector.nameText (s : Selector) : Text :=
  s.simples.flatMap Simple.nameText

/-- A token that stands for a type has its name. -/
theorem Token.nameText_of_type? {token : Token} {type : TypeSelector}
    (h : token.type? = some type) : token.nameText = type.nameText := by
  cases token with
  | name n => cases h; rfl
  | universal => cases h; rfl
  | _ => cases h

/-- The tokens of a simple selector have as long names as the selector, though in another order. -/
theorem Simple.ReadsFrom.length_nameTexts {tokens : List Token} {p : Progress} {s : Simple}
    (h : ReadsFrom p tokens s) : (nameTexts tokens).length = s.nameText.length := by
  have hfirst : ∀ (token : Token) (tokens : List Token), (nameTexts (token :: tokens)).length =
      token.nameText.length + (nameTexts tokens).length := by simp [nameTexts]
  induction h with
  | nil => simp [nameTexts, nameText]
  | type stands isOpen first further ih =>
      rw [hfirst, ih, Token.nameText_of_type? stands]
      simp [nameText, further.tag_eq_none rfl]
  | id isOpen single further ih =>
      rw [hfirst, ih]
      simp only [nameText, Token.nameText, further.id_eq_none rfl, List.length_append,
        Option.getD_some, Option.getD_none, List.length_nil]
      omega
  | className isOpen further ih =>
      rw [hfirst, ih]
      simp only [nameText, Token.nameText, List.length_append, List.flatten_cons]
      omega
  | bracketed further ih =>
      rw [hfirst, ih]
      simp [nameText, Token.nameText]

/-- The tokens of a selector have as long names as the selector. -/
theorem Selector.Reads.length_nameTexts {tokens : List Token} {head : Simple}
    {rest : List (Combinator × Simple)} (h : Reads tokens head rest) :
    (nameTexts tokens).length = (Selector.nameText ⟨head, rest⟩).length := by
  induction h with
  | single nonempty operands read =>
      have hlength := (Simple.ofTokensFrom_eq_ok_iff.mp read).length_nameTexts
      simpa [nameText, simples] using hlength
  | step nonempty operands read further ih =>
      have hleft := (Simple.ofTokensFrom_eq_ok_iff.mp read).length_nameTexts
      simp only [nameTexts, nameText, simples, List.map_cons, List.flatMap_cons,
        List.flatMap_append, List.length_append, Token.nameText, List.length_nil] at ih hleft ⊢
      omega

/-! ### Name characters at the end -/

/-- The empty text holds no token. -/
theorem eq_nil_of_lexes_nil {b : Bool} {tokens : List Token} (h : Lexes b tokens []) :
    tokens = [] := by
  have hread := Token.readAll_of_lexes h 0
  rw [Token.readAll_nil] at hread
  exact (congrArg Lexed.tokens hread).symm

/-- Characters that may start a name are a name. -/
theorem lexes_name {x : Text} (hx : ∀ c ∈ x, isNameStart c = true) (hne : x ≠ []) (b : Bool) :
    Lexes b [.name x] x := by
  obtain ⟨c, n, rfl⟩ := List.exists_cons_of_ne_nil hne
  have hword : (Token.name (c :: n)).Word (c :: n) :=
    .name (hx c (by simp)) fun d hd => isNameChar_of_isNameStart (hx d (by simp [hd]))
  have hlexes := Lexes.operand (b := b) hword (fun _ => .nil) .nil
  rwa [List.append_nil] at hlexes

/-- A name at the end of a word gets longer with the word. -/
theorem Token.Word.exists_append {token : Token} {w x : Text} (h : token.Word w)
    (hname : token.endsInName = true) (hx : ∀ c ∈ x, isNameChar c = true) :
    ∃ longer : Token, longer.Word (w ++ x) ∧
      longer.nameText.length = token.nameText.length + x.length := by
  have hall : ∀ {n : Text}, (∀ c ∈ n, isNameChar c = true) → ∀ c ∈ n ++ x, isNameChar c = true :=
    fun hn => List.forall_mem_append.mpr ⟨hn, hx⟩
  cases h with
  | @name c n start further =>
      refine ⟨.name (c :: (n ++ x)), .name start (hall further), ?_⟩
      simp only [nameText, List.length_cons, List.length_append]
      omega
  | id isName =>
      exact ⟨.id (_ ++ x), .id ⟨by simp [isName.1], hall isName.2⟩, by simp [nameText]⟩
  | className isName =>
      exact ⟨.className (_ ++ x), .className ⟨by simp [isName.1], hall isName.2⟩,
        by simp [nameText]⟩
  | universal => cases hname
  | bracketed spelled => cases hname

/-- Name characters behind space are a name of their own. -/
theorem exists_lexes_space_append {b : Bool} {g x : Text} (nonempty : g ≠ []) (spacing : Spacing g)
    (hx : ∀ c ∈ x, isNameStart c = true) (hne : x ≠ []) :
    ∃ tokens, Lexes b tokens (g ++ x) ∧ nameTexts tokens = x := by
  have hname := lexes_name hx hne false
  obtain ⟨c, n, rfl⟩ := List.exists_cons_of_ne_nil hne
  obtain ⟨hspace, hsymbol, -⟩ := isNameStart_ne (hx c (by simp))
  cases b with
  | false =>
      exact ⟨[.name (c :: n)], .space nonempty spacing (.cons hspace) rfl hname,
        by simp [nameTexts, Token.nameText]⟩
  | true =>
      refine ⟨[.combinator .descendant, .name (c :: n)],
        .descendant nonempty spacing (.cons hspace) ?_ hname, by simp [nameTexts, Token.nameText]⟩
      simp [startsOperand, hsymbol]

/-- Name characters behind a word go into its name, or are a name of their own. -/
theorem Token.Word.exists_lexes_append {b : Bool} {token : Token} {w x : Text}
    (h : token.Word w) (hx : ∀ c ∈ x, isNameStart c = true) (hne : x ≠ []) :
    ∃ tokens, Lexes b tokens (w ++ x) ∧
      (nameTexts tokens).length = token.nameText.length + x.length := by
  cases hname : token.endsInName with
  | false =>
      refine ⟨[token, .name x], .operand h (by simp [hname]) (lexes_name hx hne _), ?_⟩
      simp [nameTexts, Token.nameText]
  | true =>
      obtain ⟨longer, hword, hlength⟩ := h.exists_append hname fun c hc =>
        isNameChar_of_isNameStart (hx c hc)
      have hlexes := Lexes.operand (b := b) hword (fun _ => .nil) .nil
      rw [List.append_nil] at hlexes
      exact ⟨[longer], hlexes, by simp [nameTexts, hlength]⟩

/-- More name characters behind a text make the names in its tokens longer. -/
theorem exists_lexes_append {b : Bool} {tokens : List Token} {t x : Text} (h : Lexes b tokens t)
    (hx : ∀ c ∈ x, isNameStart c = true) (hne : x ≠ []) :
    ∃ longer, Lexes b longer (t ++ x) ∧ (nameTexts tokens).length < (nameTexts longer).length := by
  have hpos : 0 < x.length := List.length_pos_iff.mpr hne
  -- what stands at the end of a text that is not empty does not matter where it starts
  have hsame : ∀ {t : Text}, t ≠ [] → startsOperand (t ++ x) = startsOperand t := by
    intro t ht
    obtain ⟨c, r, rfl⟩ := List.exists_cons_of_ne_nil ht
    rfl
  induction h with
  | nil => exact ⟨[.name x], lexes_name hx hne _, by simpa [nameTexts, Token.nameText] using hpos⟩
  | @space b tokens g t nonempty spacing whole apart further ih =>
      rw [List.append_assoc]
      by_cases ht : t = []
      · subst ht
        obtain ⟨longer, hlexes, hnames⟩ := exists_lexes_space_append nonempty spacing hx hne
        rw [eq_nil_of_lexes_nil further, List.nil_append]
        refine ⟨longer, hlexes, ?_⟩
        rw [hnames]
        simpa [nameTexts] using hpos
      · obtain ⟨longer, hlexes, hlength⟩ := ih
        exact ⟨longer, .space nonempty spacing (whole.append_of_ne_nil ht)
          (by rw [hsame ht, apart]) hlexes, hlength⟩
  | @descendant tokens g t nonempty spacing whole between further ih =>
      obtain ⟨longer, hlexes, hlength⟩ := ih
      have ht : t ≠ [] := by
        rintro rfl
        cases between
      refine ⟨.combinator .descendant :: longer, ?_, by simpa [nameTexts] using hlength⟩
      rw [List.append_assoc]
      exact .descendant nonempty spacing (whole.append_of_ne_nil ht) (by rw [hsame ht, between])
        hlexes
  | @symbol b tokens c k t isSymbol further ih =>
      obtain ⟨longer, hlexes, hlength⟩ := ih
      exact ⟨.combinator k :: longer, .symbol isSymbol hlexes, by simpa [nameTexts] using hlength⟩
  | @operand b token tokens w t word whole further ih =>
      rw [List.append_assoc]
      by_cases ht : t = []
      · subst ht
        obtain ⟨longer, hlexes, hlength⟩ := word.exists_lexes_append (b := b) hx hne
        rw [eq_nil_of_lexes_nil further, List.nil_append]
        refine ⟨longer, hlexes, ?_⟩
        rw [hlength]
        simpa [nameTexts] using hpos
      · obtain ⟨longer, hlexes, hlength⟩ := ih
        refine ⟨token :: longer, .operand word (fun hname => (whole hname).append_of_ne_nil ht)
          hlexes, ?_⟩
        simpa [nameTexts] using hlength

/-- **More name characters at the end spell another selector.** -/
theorem Selector.Spelling.not_append {s : Selector} {t x : Text} (h : s.Spelling t)
    (hx : ∀ c ∈ x, isNameStart c = true) (hne : x ≠ []) : ¬ s.Spelling (t ++ x) := by
  intro hlonger
  obtain ⟨tokens, hlexes, hreads⟩ := h.exists_reads
  obtain ⟨longer, hlexes', hreads'⟩ := hlonger.exists_reads
  obtain ⟨more, hmore, hlength⟩ := exists_lexes_append hlexes hx hne
  -- the tokens of a text are determined by the text
  have hsame : more = longer := by
    have hread := Token.readAll_of_lexes hmore 0
    rw [Token.readAll_of_lexes hlexes' 0] at hread
    exact (congrArg Lexed.tokens hread).symm
  rw [hsame, hreads.length_nameTexts, hreads'.length_nameTexts] at hlength
  exact Nat.lt_irrefl _ hlength

end TreeSelect
