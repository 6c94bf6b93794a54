import Mathlib.Data.List.Basic
import TreeSelect.Json.Basic
import TreeSelect.Json.Reader
/-!
# What is written on one line is read back

A value without numbers is read back from its one-line form, whatever follows, if arrays and objects
are not nested deeper in it than the reader allows. If they are, the text is refused as malformed:
the reader meets the bracket that is too deep before it meets anything else that is wrong.

## Main definitions

* `Json.nesting`: how deep arrays and objects are nested in a value.
* `Json.Numberless`: there is no number in a value.

## Main statements

* `Json.readValue_compact`: **what becomes of a value that is written and read.**
-/

namespace TreeSelect.Json

/-! ### Nesting and numbers -/

mutual

/-- How deep arrays and objects are nested in a value. -/
def nesting : Json → Nat
  | array items => nestingItems items + 1
  | object members => nestingMembers members + 1
  | _ => 0

/-- How deep arrays and objects are nested in the deepest of several values. -/
def nestingItems : List Json → Nat
  | [] => 0
  | item :: rest => max (nesting item) (nestingItems rest)

/-- How deep arrays and objects are nested in the deepest of several members. -/
def nestingMembers : List (Text × Json) → Nat
  | [] => 0
  | (_, value) :: rest => max (nesting value) (nestingMembers rest)

end

mutual

/-- There is no number in a value. -/
def Numberless : Json → Prop
  | number _ => False
  | array items => NumberlessItems items
  | object members => NumberlessMembers members
  | _ => True

/-- There is no number in several values. -/
def NumberlessItems : List Json → Prop
  | [] => True
  | item :: rest => Numberless item ∧ NumberlessItems rest

/-- There is no number in several members. -/
def NumberlessMembers : List (Text × Json) → Prop
  | [] => True
  | (_, value) :: rest => Numberless value ∧ NumberlessMembers rest

end

/-! ### One step of the reader -/

/-- A character that is no space is not skipped. -/
theorem skipSpace_cons {c : Char} (h : isSpace c = false) (t : Text) :
    skipSpace (c :: t) = c :: t := by
  rw [skipSpace, List.dropWhile_cons, h]
  rfl

/-- A value without numbers starts with a character that is neither a space nor a bracket that
closes an array. -/
theorem exists_compact_cons {j : Json} (h : j.Numberless) :
    ∃ c t, j.compact = c :: t ∧ isSpace c = false ∧ c ≠ ']' := by
  cases j with
  | null => exact ⟨'n', _, rfl, by decide, by decide⟩
  | bool value => cases value <;> exact ⟨_, _, rfl, by decide, by decide⟩
  | number literal => exact h.elim
  | string value => exact ⟨'"', _, rfl, by decide, by decide⟩
  | array items => exact ⟨'[', _, by rw [compact], by decide, by decide⟩
  | object members => exact ⟨'\x7b', _, by rw [compact], by decide, by decide⟩

/-- There are no more items than characters. -/
theorem length_le_length_compactItems (items : List Json) :
    items.length ≤ (compactItems items).length := by
  induction items with
  | nil => simp
  | cons item rest ih =>
      cases rest with
      | nil => simp [compactItems]
      | cons next rest =>
          simp only [compactItems, List.length_append, List.length_cons] at ih ⊢
          omega

/-- The bound under which the items of an array are read is large enough. -/
theorem length_lt_of_compactItems (items : List Json) (rest : Text) :
    items.length < (compactItems items ++ rest).length + 1 := by
  rw [List.length_append]
  exact Nat.lt_succ_of_le (Nat.le_add_right_of_le (length_le_length_compactItems items))

/-- There are no more members than characters. -/
theorem length_le_length_compactMembers (members : List (Text × Json)) :
    members.length ≤ (compactMembers members).length := by
  induction members with
  | nil => simp
  | cons member rest ih =>
      obtain ⟨name, value⟩ := member
      cases rest with
      | nil =>
          simp only [compactMembers, List.length_append, List.length_cons, List.length_nil]
          omega
      | cons next rest =>
          simp only [compactMembers, List.length_append, List.length_cons] at ih ⊢
          omega

/-- The bound under which the members of an object are read is large enough. -/
theorem length_lt_of_compactMembers (members : List (Text × Json)) (rest : Text) :
    members.length < (compactMembers members ++ rest).length + 1 := by
  rw [List.length_append]
  exact Nat.lt_succ_of_le (Nat.le_add_right_of_le (length_le_length_compactMembers members))

/-- A written name is read, with the colon behind it. -/
theorem readName_encode (name rest : Text) :
    readName (Quoted.encode name ++ ':' :: rest) = .ok (name, rest) := by
  have hencode : Quoted.encode name ++ ':' :: rest =
      '"' :: (name.flatMap Quoted.escape ++ '"' :: ':' :: rest) := by
    simp [Quoted.encode]
  rw [hencode, readName, skipSpace_cons (by decide)]
  simp [Quoted.decode_encode, skipSpace_cons (show isSpace ':' = false by decide), expect,
    Except.map]

/-- An array that is not empty is read by its items. -/
theorem readArray_of_compact {item : Text → Except Fault (Json × Text)} {j : Json}
    {items : List Json} (h : NumberlessItems (j :: items)) (rest : Text) :
    readArray item (compactItems (j :: items) ++ rest) =
      (readItems item [] ((compactItems (j :: items) ++ rest).length + 1)
        (compactItems (j :: items) ++ rest)).map fun (items, rest) => (array items, rest) := by
  obtain ⟨c, t, hc, hspace, hne⟩ := exists_compact_cons h.1
  obtain ⟨t, ht⟩ : ∃ t, compactItems (j :: items) ++ rest = c :: t := by
    cases items <;> simp [compactItems, hc]
  rw [ht, readArray, skipSpace_cons hspace]
  split
  · rename_i heq
    cases heq
    exact absurd rfl hne
  · rfl

/-- An object that is not empty is read by its members. -/
theorem readObject_of_compact {item : Text → Except Fault (Json × Text)} (member : Text × Json)
    (members : List (Text × Json)) (rest : Text) :
    readObject item (compactMembers (member :: members) ++ rest) =
      (readMembers item [] ((compactMembers (member :: members) ++ rest).length + 1)
        (compactMembers (member :: members) ++ rest)).map
          fun (members, rest) => (object members, rest) := by
  obtain ⟨t, ht⟩ : ∃ t, compactMembers (member :: members) ++ rest = '"' :: t := by
    cases members <;> simp [compactMembers, Quoted.encode]
  rw [ht, readObject, skipSpace_cons (by decide)]
  rfl

/-! ### Too deep or not -/

/-- What comes of reading something that was written: the thing itself, or a refusal if it is nested
deeper than is allowed. -/
def grant {α : Type} (depth nested : Nat) (value : α) : Except Fault α :=
  if nested ≤ depth then .ok value else .error .malformed

/-- An array or an object needs one level for itself. -/
@[simp] theorem grant_succ {α : Type} (depth nested : Nat) (value : α) :
    grant (depth + 1) (nested + 1) value = grant depth nested value := by
  simp [grant]

/-- What is read may be put into another form. -/
@[simp] theorem map_grant {α β : Type} (depth nested : Nat) (value : α) (f : α → β) :
    (grant depth nested value).map f = grant depth nested (f value) := by
  unfold grant
  split <;> rfl

/-- Of two things the one that is nested deeper decides, the second being read after the first. -/
theorem grant_max (depth first second : Nat) {α : Type} (value : α) :
    grant depth (max first second) value =
      if first ≤ depth then grant depth second value else .error .malformed := by
  simp only [grant, Nat.max_le]
  by_cases hfirst : first ≤ depth <;> simp [hfirst]

section Steps

variable {item : Text → Except Fault (Json × Text)} {j : Json} {t rest behind : Text}
  {depth nested others bound : Nat}

/-- The item before the bracket is the last. -/
theorem readItems_last {taken : List Json} (hitem : item t = grant depth nested (j, ']' :: rest)) :
    readItems item taken (bound + 1) t = grant depth nested (taken.reverse ++ [j], rest) := by
  rw [readItems, hitem, grant, grant]
  by_cases hnested : nested ≤ depth
  · simp [hnested, skipSpace_cons (show isSpace ']' = false by decide)]
  · simp [hnested]

/-- Behind an item and a comma the other items are read. -/
theorem readItems_next {taken found : List Json}
    (hitem : item t = grant depth nested (j, ',' :: behind))
    (hrest : readItems item (j :: taken) bound behind = grant depth others (found, rest)) :
    readItems item taken (bound + 1) t = grant depth (max nested others) (found, rest) := by
  rw [readItems, hitem, grant_max, ← hrest, grant]
  by_cases hnested : nested ≤ depth
  · simp [hnested, skipSpace_cons (show isSpace ',' = false by decide)]
  · simp [hnested]

variable {name : Text}

/-- The member before the brace is the last. -/
theorem readMembers_last {taken : List (Text × Json)}
    (hitem : item t = grant depth nested (j, '\x7d' :: rest)) :
    readMembers item taken (bound + 1) (Quoted.encode name ++ ':' :: t) =
      grant depth nested (taken.reverse ++ [(name, j)], rest) := by
  rw [readMembers, readName_encode]
  simp only [hitem, grant]
  by_cases hnested : nested ≤ depth
  · simp [hnested, skipSpace_cons (show isSpace '\x7d' = false by decide)]
  · simp [hnested]

/-- Behind a member and a comma the other members are read. -/
theorem readMembers_next {taken found : List (Text × Json)}
    (hitem : item t = grant depth nested (j, ',' :: behind))
    (hrest : readMembers item ((name, j) :: taken) bound behind =
      grant depth others (found, rest)) :
    readMembers item taken (bound + 1) (Quoted.encode name ++ ':' :: t) =
      grant depth (max nested others) (found, rest) := by
  rw [readMembers, readName_encode, grant_max, ← hrest]
  simp only [hitem, grant]
  by_cases hnested : nested ≤ depth
  · simp [hnested, skipSpace_cons (show isSpace ',' = false by decide)]
  · simp [hnested]

end Steps

/-! ### Reading back -/

mutual

/-- **A value without numbers is read back from its one-line form**, whatever follows, unless
arrays and objects are nested deeper in it than is allowed; then the text is malformed. -/
theorem readValue_compact : ∀ {j : Json}, j.Numberless → ∀ (depth : Nat) (rest : Text),
    readValue depth (j.compact ++ rest) = grant depth j.nesting (j, rest)
  | .null, _, depth, rest => by
      show readValue depth ('n' :: 'u' :: 'l' :: 'l' :: rest) = _
      rw [readValue, skipSpace_cons (by decide)]
      rfl
  | .bool true, _, depth, rest => by
      show readValue depth ('t' :: 'r' :: 'u' :: 'e' :: rest) = _
      rw [readValue, skipSpace_cons (by decide)]
      rfl
  | .bool false, _, depth, rest => by
      show readValue depth ('f' :: 'a' :: 'l' :: 's' :: 'e' :: rest) = _
      rw [readValue, skipSpace_cons (by decide)]
      rfl
  | .string value, _, depth, rest => by
      have hcompact : (string value).compact ++ rest =
          '"' :: (value.flatMap Quoted.escape ++ '"' :: rest) := by
        simp [compact, Quoted.encode]
      rw [hcompact, readValue, skipSpace_cons (by decide)]
      simp [Quoted.decode_encode, Except.map, nesting, grant]
  | .array items, h, depth, rest => by
      have hitems := @readItems_compactItems items h
      rw [compact, List.cons_append, readValue, skipSpace_cons (by decide)]
      cases depth with
      | zero => simp [grant, nesting]
      | succ depth =>
          rw [nesting, grant_succ]
          cases items with
          | nil => rfl
          | cons item items =>
              show readArray (readValue depth) (compactItems (item :: items) ++ rest) = _
              rw [readArray_of_compact h, hitems (List.cons_ne_nil _ _) depth [] _ rest
                (length_lt_of_compactItems _ rest), map_grant]
              rfl
  | .object members, h, depth, rest => by
      have hmembers := @readMembers_compactMembers members h
      rw [compact, List.cons_append, readValue, skipSpace_cons (by decide)]
      cases depth with
      | zero => simp [grant, nesting]
      | succ depth =>
          rw [nesting, grant_succ]
          cases members with
          | nil => rfl
          | cons member members =>
              show readObject (readValue depth) (compactMembers (member :: members) ++ rest) = _
              rw [readObject_of_compact, hmembers (List.cons_ne_nil _ _) depth [] _ rest
                (length_lt_of_compactMembers _ rest), map_grant]
              rfl

/-- Items are read back up to the bracket behind them. -/
theorem readItems_compactItems : ∀ {items : List Json}, NumberlessItems items → items ≠ [] →
    ∀ (depth : Nat) (taken : List Json) (bound : Nat) (rest : Text), items.length < bound →
      readItems (readValue depth) taken bound (compactItems items ++ rest) =
        grant depth (nestingItems items) (taken.reverse ++ items, rest)
  | [item], h, _, depth, taken, bound + 1, rest, _ => by
      rw [compactItems, List.append_assoc]
      have hitem := readValue_compact h.1 depth (']' :: rest)
      simpa [nestingItems] using readItems_last hitem
  | item :: next :: items, h, _, depth, taken, bound + 1, rest, hbound => by
      rw [compactItems, List.append_assoc]
      have hitem := readValue_compact h.1 depth (',' :: (compactItems (next :: items) ++ rest))
      have hrest := @readItems_compactItems (next :: items) h.2 (List.cons_ne_nil _ _) depth
        (item :: taken) bound rest (Nat.lt_of_succ_lt_succ hbound)
      rw [nestingItems]
      simpa using readItems_next hitem hrest

/-- Members are read back up to the brace behind them. -/
theorem readMembers_compactMembers : ∀ {members : List (Text × Json)}, NumberlessMembers members →
    members ≠ [] → ∀ (depth : Nat) (taken : List (Text × Json)) (bound : Nat) (rest : Text),
      members.length < bound →
        readMembers (readValue depth) taken bound (compactMembers members ++ rest) =
          grant depth (nestingMembers members) (taken.reverse ++ members, rest)
  | [(name, value)], h, _, depth, taken, bound + 1, rest, _ => by
      have hitem := readValue_compact h.1 depth ('\x7d' :: rest)
      simpa [compactMembers, nestingMembers] using readMembers_last hitem
  | (name, value) :: next :: members, h, _, depth, taken, bound + 1, rest, hbound => by
      have hitem := readValue_compact h.1 depth (',' :: (compactMembers (next :: members) ++ rest))
      have hrest := @readMembers_compactMembers (next :: members) h.2 (List.cons_ne_nil _ _) depth
        ((name, value) :: taken) bound rest (Nat.lt_of_succ_lt_succ hbound)
      rw [nestingMembers]
      simpa [compactMembers] using readMembers_next hitem hrest

end

end TreeSelect.Json
