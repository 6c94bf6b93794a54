import TreeSelect.Document
import TreeSelect.Proofs.Document.Exporting
import TreeSelect.Proofs.Json.Reading
/-!
# Documents are read back

A document that was written on one line is read back as the same nodes. What is empty in a node is
not written, and an object is taken for an element, a text or a comment by the members that it has,
so the proof is about which members a written node has: a tag is written for elements only.

## Main statements

* `DocumentNode.ofJson?_toJson`: a node is found again from its JSON value.
* `Document.read_write`: a document is read back if it is not nested too deep.
* `Tree.ofText_write`: **the tree of a written document.**
-/

namespace TreeSelect

/-! ### Attributes -/

namespace Attributes

/-- Attributes with the same entries are the same. -/
theorem eq_of_entries_eq {a b : Attributes} (h : a.entries = b.entries) : a = b := by
  obtain ⟨entries, hsorted⟩ := a
  obtain ⟨entries', hsorted'⟩ := b
  obtain rfl : entries = entries' := h
  rfl

/-- A name behind all others is inserted at the end. -/
theorem insertEntry_of_forall_lt {name value : Text} {entries : List (Text × Text)}
    (h : ∀ entry ∈ entries, entry.1 < name) :
    insertEntry name value entries = entries ++ [(name, value)] := by
  induction entries with
  | nil => rfl
  | cons first rest ih =>
      have hlt : first.1 < name := h first (by simp)
      have hne : name ≠ first.1 := by
        rintro rfl
        exact List.lt_irrefl _ hlt
      rw [insertEntry, if_neg (List.lt_asymm hlt), if_neg hne,
        ih fun entry hentry => h entry (List.mem_cons_of_mem _ hentry)]
      rfl

/-- Attributes are found again from their entries. -/
theorem ofList_entries (attributes : Attributes) : ofList attributes.entries = attributes := by
  have hfold : ∀ (pairs : List (Text × Text)) (start : Attributes),
      (start.entries ++ pairs).Pairwise (fun a b => a.1 < b.1) →
        (pairs.foldl (fun attributes pair => attributes.insert pair.1 pair.2) start).entries =
          start.entries ++ pairs := by
    intro pairs
    induction pairs with
    | nil => simp
    | cons pair pairs ih =>
        intro start hsorted
        have hentries : (start.insert pair.1 pair.2).entries = start.entries ++ [pair] :=
          insertEntry_of_forall_lt fun entry hentry =>
            (List.pairwise_append.mp hsorted).2.2 entry hentry pair (by simp)
        rw [List.foldl_cons, ih _ (by simpa [hentries] using hsorted), hentries]
        simp
  exact eq_of_entries_eq (hfold attributes.entries empty attributes.sorted)

end Attributes

namespace DocumentNode

/-- Attributes are read back. -/
theorem attributesOfJson?_toJson (attributes : Attributes) :
    attributesOfJson? attributes.toJson = some attributes := by
  have hmembers : ∀ entries : List (Text × Text),
      (entries.map fun (entry : Text × Text) => (entry.1, Json.string entry.2)).mapM
        attributeOfMember? = some entries := by
    intro entries
    induction entries with
    | nil => rfl
    | cons entry rest ih =>
        rw [List.map_cons, List.mapM_cons, ih]
        rfl
  show (((attributes.entries.map _).mapM attributeOfMember?).map Attributes.ofList) = _
  rw [hmembers, Option.map_some, Attributes.ofList_entries]

/-- An element is written as its tag, its attributes and its children, without what is empty. -/
theorem toJson_element (tag : Text) (attributes : Attributes) (children : List DocumentNode) :
    toJson (.element tag attributes children) = .object (("tag".toList, .string tag) ::
      ((if attributes.isEmpty then [] else [("attrs".toList, attributes.toJson)]) ++
        if children.isEmpty then [] else [("children".toList, .array (toJsonAll children))])) := by
  cases children <;> simp [toJson, toJsonAll]

section Members

variable {members : List (Text × Json)} {found : Members}

/-- A tag is read in front of members that hold none. -/
theorem membersOfJson?_tag (h : membersOfJson? members = some found) (htag : found.tag = none)
    (tag : Text) :
    membersOfJson? (("tag".toList, .string tag) :: members) = some { found with tag } := by
  rw [membersOfJson?, h]
  simp [htag]

/-- Attributes are read in front of members that hold none. -/
theorem membersOfJson?_attrs (h : membersOfJson? members = some found)
    (hattributes : found.attributes = none) (attributes : Attributes) :
    membersOfJson? (("attrs".toList, attributes.toJson) :: members) =
      some { found with attributes } := by
  rw [membersOfJson?, h, attributesOfJson?_toJson]
  simp [hattributes]

/-- Children are read in front of members that hold none. -/
theorem membersOfJson?_children (h : membersOfJson? members = some found)
    (hchildren : found.children = none) {items : List Json} {children : List DocumentNode}
    (hitems : allOfJson? items = some children) :
    membersOfJson? (("children".toList, .array items) :: members) =
      some { found with children } := by
  rw [membersOfJson?, h, childrenOfJson?, hitems]
  simp [hchildren]

end Members

/-- An element whose children are read back is read back itself: what was left out is empty. -/
theorem ofJson?_toJson_element {children : List DocumentNode}
    (hall : allOfJson? (toJsonAll children) = some children) (tag : Text)
    (attributes : Attributes) :
    ofJson? (toJson (.element tag attributes children)) =
      some (.element tag attributes children) := by
  have hnone : membersOfJson? [] = some {} := rfl
  obtain ⟨shown, hmembers, hshown⟩ : ∃ shown : Option (List DocumentNode),
      membersOfJson? (if children.isEmpty then [] else
        [("children".toList, .array (toJsonAll children))]) = some { children := shown } ∧
      shown.getD [] = children := by
    cases children with
    | nil => exact ⟨none, hnone, rfl⟩
    | cons first rest => exact ⟨_, membersOfJson?_children hnone rfl hall, rfl⟩
  rw [toJson_element, ofJson?]
  cases hempty : attributes.isEmpty with
  | true =>
      have hattributes : attributes = .empty :=
        Attributes.eq_of_entries_eq (List.isEmpty_iff.mp hempty)
      rw [if_pos rfl, List.nil_append, membersOfJson?_tag hmembers rfl, hattributes]
      show some (element tag .empty (shown.getD [])) = _
      rw [hshown]
  | false =>
      have hbehind := membersOfJson?_attrs hmembers rfl attributes
      rw [if_neg Bool.false_ne_true, List.singleton_append, membersOfJson?_tag hbehind rfl]
      show some (element tag attributes (shown.getD [])) = _
      rw [hshown]

mutual

/-- **A node is read back as the node that it is**: an element is never taken for a text, nor a
text or a comment for an element. -/
theorem ofJson?_toJson : ∀ node : DocumentNode, ofJson? node.toJson = some node
  | .element tag attributes children =>
      ofJson?_toJson_element (allOfJson?_toJsonAll children) tag attributes
  | .text content => by
      rw [toJson, ofJson?]
      rfl
  | .comment content => by
      rw [toJson, ofJson?]
      rfl

/-- Nodes are read back one by one. -/
theorem allOfJson?_toJsonAll :
    ∀ nodes : List DocumentNode, allOfJson? (toJsonAll nodes) = some nodes
  | [] => rfl
  | node :: rest => by
      rw [toJsonAll, allOfJson?, ofJson?_toJson node, allOfJson?_toJsonAll rest]

end

/-- An object has no numbers exactly if no member has. -/
theorem numberlessMembers_iff (members : List (Text × Json)) :
    Json.NumberlessMembers members ↔ ∀ member ∈ members, member.2.Numberless := by
  induction members with
  | nil => simp [Json.NumberlessMembers]
  | cons member rest ih => simp [Json.NumberlessMembers, ih]

mutual

/-- No number is written in a node. -/
theorem numberless_toJson : ∀ node : DocumentNode, node.toJson.Numberless
  | .element tag attributes children => by
      have hattributes : attributes.toJson.Numberless := by
        rw [Attributes.toJson, Json.Numberless, numberlessMembers_iff]
        intro member hmember
        obtain ⟨entry, -, rfl⟩ := List.mem_map.mp hmember
        trivial
      have hchildren : (Json.array (toJsonAll children)).Numberless := by
        rw [Json.Numberless]
        exact numberlessItems_toJsonAll children
      rw [toJson_element, Json.Numberless, numberlessMembers_iff]
      intro member hmember
      rcases List.mem_cons.mp hmember with rfl | hmember
      · trivial
      rcases List.mem_append.mp hmember with hmember | hmember
      · split at hmember
        · cases hmember
        · exact List.mem_singleton.mp hmember ▸ hattributes
      · split at hmember
        · cases hmember
        · exact List.mem_singleton.mp hmember ▸ hchildren
  | .text content => ⟨trivial, trivial⟩
  | .comment content => ⟨trivial, trivial⟩

/-- No number is written in several nodes. -/
theorem numberlessItems_toJsonAll :
    ∀ nodes : List DocumentNode, Json.NumberlessItems (toJsonAll nodes)
  | [] => trivial
  | node :: rest => ⟨numberless_toJson node, numberlessItems_toJsonAll rest⟩

end

end DocumentNode

/-- **A document that was written is read back**, unless arrays and objects are nested too deep in
it; then the text is refused as malformed. -/
theorem Document.read_write {nodes : List DocumentNode} (h : nodes ≠ []) :
    read (write nodes) =
      if (toJson nodes).nesting ≤ depth then .ok nodes else .error (.json .malformed) := by
  have hvalue := Json.readValue_compact (j := toJson nodes)
    (DocumentNode.numberlessItems_toJsonAll nodes) depth []
  rw [List.append_nil] at hvalue
  have hnodes : ofJson? (toJson nodes) = some nodes := DocumentNode.allOfJson?_toJsonAll nodes
  rw [read, write, hvalue, Json.grant]
  by_cases hnested : (toJson nodes).nesting ≤ depth
  · simp [hnested, hnodes, Json.skipSpace, h]
  · simp [hnested]

/-- **The tree of a written document is the tree of the document**, unless the text nests 128 arrays
and objects or more; then it is refused as malformed. The tree says the same as the document. -/
theorem Tree.ofText_write {nodes : List DocumentNode} (h : nodes ≠ []) :
    (ofText (Document.write nodes) =
      if (Document.toJson nodes).nesting < 128 then .ok (ofDocument nodes)
      else .error (.json .malformed)) ∧
    (ofDocument nodes).toDocument = nodes := by
  refine ⟨?_, toDocument_ofDocument nodes⟩
  have hdepth : (Document.toJson nodes).nesting ≤ Document.depth ↔
      (Document.toJson nodes).nesting < 128 := Nat.lt_succ_iff.symm
  simp only [ofText, Document.read_write h, hdepth]
  split <;> rfl

/-- A list with an id that holds a quoted text, a comment and an empty item. -/
def quotedList : List DocumentNode :=
  [.element "ul".toList (.ofList [("id".toList, ['é'])])
    [.text ['"', '\n', '<'], .comment [], .element "li".toList .empty []]]

/-- The list is written and read, and its tree is that of the list. -/
theorem Tree.ofText_write_quotedList :
    quotedList ≠ [] ∧ ofText (Document.write quotedList) = .ok (ofDocument quotedList) ∧
      (ofDocument quotedList).toDocument = quotedList := by
  have hne : quotedList ≠ [] := List.cons_ne_nil _ _
  have hnested : (Document.toJson quotedList).nesting < 128 := by decide
  obtain ⟨hread, hback⟩ := Tree.ofText_write hne
  exact ⟨hne, hread.trans (if_pos hnested), hback⟩

end TreeSelect
