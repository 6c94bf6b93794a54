import TreeSelect.CommandLine.Arguments
import TreeSelect.Document
import TreeSelect.Query.Session
/-!
# Running a command line

A command line is answered in two steps: first the arguments say what is asked for and which
document it needs; then the bytes of that document, once they are fetched, decide the answer. What
is printed are matches and selectors, as lines for a terminal or as JSON, or the report on a
failure.

## Main definitions

* `Style`: how a text is set off on a terminal.
* `matchLines`, `matchesJson`: the answer to a query.
* `readingLines`, `readingJson`: how a selector is read.
* `failure`: a failure and its causes.
* `Place`, `Fetched`: where a document comes from, and what came of fetching it.
* `Outcome`: what the program prints and the code with which it ends.
* `answer`, `run`: the answer to a request, and to a command line.
-/

namespace TreeSelect

/-! ### Reports -/

namespace CommandLine

/-- How a text is set off on a terminal. -/
inductive Style where
  /-- In green. -/
  | green
  /-- In red. -/
  | red
  /-- In faint letters. -/
  | faint
  /-- In bold letters. -/
  | bold

namespace Style

/-- The control sequence with a given number. -/
def sequence (n : Nat) : Text :=
  '\x1b' :: '[' :: Text.ofNat n ++ ['m']

/-- The numbers that begin and end a style. -/
def numbers : Style → Nat × Nat
  | green => (32, 39)
  | red => (31, 39)
  | faint => (2, 0)
  | bold => (1, 0)

/-- A text set off from its surroundings. -/
def apply (style : Style) (t : Text) : Text :=
  sequence style.numbers.1 ++ t ++ sequence style.numbers.2

end Style

/-- Lines, each with its end. -/
def unlines (lines : List Text) : Text :=
  lines.flatMap fun line => line ++ ['\n']

/-! ### Matches -/

/-- A node with its start tag, if it is an element. -/
def matchLine (t : Tree) (n : NodeId) : Text :=
  '[' :: Text.ofNat n ++ [']'] ++
    match t.element? n with
    | some e => ' ' :: e.startTag
    | none => []

/-- The number of matches in words. -/
def matchCount (count : Nat) : Text :=
  Text.ofNat count ++ if count = 1 then " match".toList else " matches".toList

/-- Matches, one on a line, and their number. -/
def matchLines (t : Tree) (found : List NodeId) : Text :=
  unlines <|
    (found.map fun n => Style.green.apply (matchLine t n)) ++
      [Style.faint.apply (matchCount found.length)]

/-- A match as JSON; nodes that are no elements have no record. -/
def matchJson? (t : Tree) (n : NodeId) : Option Json :=
  (t.element? n).map fun e =>
    .object <|
      [("node".toList, .ofNat n), ("tag".toList, .string e.tag)] ++
        if e.attributes.isEmpty then []
        else [("attrs".toList, e.attributes.toJson)]

/-- Matches as JSON. -/
def matchesJson (t : Tree) (found : List NodeId) : Text :=
  unlines [(Json.array (found.filterMap (matchJson? t))).pretty 0]

/-! ### Readings of selectors -/

/-- A simple selector with its form. -/
def simpleLabel (s : Simple) : Text :=
  s.text ++ ' ' :: '(' :: s.form.text ++ [')']

/-- A combinator where it must be seen. -/
def visibleSymbol : Combinator → Char
  | .descendant => '␣'
  | c => c.symbol

/-- A chain with the form of each simple selector. -/
def selectorLine (s : Selector) : Text :=
  simpleLabel s.head ++ s.rest.flatMap fun (c, simple) =>
    ' ' :: visibleSymbol c :: ' ' :: simpleLabel simple

/-- How a text is read: the canonical text, the chains and the rejected clauses. -/
def readingLines (outcome : SelectorList.Outcome) : Text :=
  unlines <|
    Style.bold.apply (SelectorList.text outcome.selectors) ::
      (outcome.selectors.map fun s => ' ' :: ' ' :: selectorLine s) ++
      outcome.rejected.map fun r =>
        ' ' :: ' ' :: Style.red.apply "rejected:".toList ++ ' ' :: r.message

/-- How a text is read, as JSON. -/
def readingJson (outcome : SelectorList.Outcome) : Text :=
  unlines [(Json.object
    [("canonical".toList, .string (SelectorList.text outcome.selectors)),
      ("selectors".toList, SelectorList.toJson outcome.selectors),
      ("rejected".toList, .array (outcome.rejected.map fun r => .object
        [("clause".toList, .string r.clause), ("error".toList, .string r.error.message)]))]).pretty
    0]

/-! ### Failures -/

/-- The causes of a failure, numbered if there are several. -/
def causeLines : List Text → List Text
  | [cause] => ["    ".toList ++ cause]
  | causes => causes.zipIdx.map fun (cause, index) =>
    "    ".toList ++ Text.ofNat index ++ ':' :: ' ' :: cause

/-- The report on a failure. -/
def failure (problem : Text) (causes : List Text) : Text :=
  unlines <|
    ["Error: ".toList ++ problem, [], "Caused by:".toList] ++ causeLines causes

/-! ### Requests -/

/-- Where a document comes from. -/
inductive Place where
  /-- From standard input. -/
  | input
  /-- From a file. -/
  | file (path : Text)
deriving DecidableEq, Repr

/-- The place that a file argument names. A path whose only part is a hyphen is standard input. -/
def Place.ofPath (path : Text) : Place :=
  match path.splitOn '/' with
  | first :: rest =>
    if first = ['-'] ∧ rest.all (fun part => part == [] || part == ['.']) then .input
    else .file path
  | [] => .file path

/-- Why a document was not fetched. -/
inductive FetchError where
  /-- There is no such file. -/
  | noSuchFile
  /-- Anything else, in words. -/
  | other (reason : Text)
deriving DecidableEq, Repr

/-- Why a document was not fetched, in words. -/
def FetchError.message : FetchError → Text
  | noSuchFile => "No such file or directory (os error 2)".toList
  | other reason => reason

/-- What came of fetching a document. -/
abbrev Fetched := Except FetchError ByteArray

/-- What a program prints, and the code with which it ends. -/
structure Outcome where
  /-- The code: 0 for an answer, 1 for a failure, 2 for refused arguments. -/
  code : Nat := 0
  /-- What is printed to standard output. -/
  output : Text := []
  /-- What is printed to standard error. -/
  errors : Text := []
deriving DecidableEq, Repr

/-- An outcome that is a failure. -/
def Outcome.failed (problem : Text) (causes : List Text) : Outcome where
  code := 1
  errors := failure problem causes

/-- The place of the document that a request needs, if it needs one. -/
def Request.place? : Request → Option Place
  | .query request => some (.ofPath request.file)
  | .tree file => some (.ofPath file)
  | _ => none

/-- A path between quotes. -/
def quoted (path : Text) : Text :=
  '\x27' :: path ++ ['\x27']

/-- The text of a fetched document. -/
def decode (path : Text) (fetched : Fetched) : Except Outcome Text :=
  let problem : Text :=
    match Place.ofPath path with
    | .input => "failed to read document from stdin".toList
    | .file path => "failed to read ".toList ++ quoted path
  match fetched with
  | .error e => .error (.failed problem [e.message])
  | .ok bytes =>
    match String.fromUTF8? bytes with
    | none => .error (.failed problem ["stream did not contain valid UTF-8".toList])
    | some text => .ok text.toList

/-- The tree of a fetched document. -/
def load (path : Text) (fetched : Fetched) : Except Outcome Tree :=
  match decode path fetched with
  | .error outcome => .error outcome
  | .ok text =>
    match Tree.ofText text with
    | .ok tree => .ok tree
    | .error e =>
      .error <| .failed ("failed to load ".toList ++ quoted path) <|
        match e with
        | .empty => [e.message]
        | _ => [e.message, e.detail]

/-- The nodes that a query finds in a tree. -/
def QueryRequest.nodes (request : QueryRequest) (t : Tree) : List NodeId :=
  let context := (request.context.map Context.selector).getD .root
  let engine : Engine := { remembers := true }
  let found := (engine.query t.view request.options request.selector context).1
  if request.unique then distinct found else found

/-- How the program is used. -/
def usage : Text :=
  "Query labeled trees with a compact selector language

Usage: sieve <COMMAND>

Commands:
  query <FILE> <SELECTOR>  Print the nodes matching a selector
      --context <SELECTOR>     Start from the first match of this selector
      --every-anchor           Evaluate combinators against every left-hand match
      --sibling-result <SIDE>  Report this side of ~: anchor or candidate
      --unique                 Drop repeated nodes from the result
      --json                   Print matches as JSON
  parse <SELECTOR>         Show the parsed form of a selector list
      --json                   Print the parsed form as JSON
  tree <FILE>              Print the outline of a document

A FILE that is - stands for standard input.
".toList

/-- The answer to a request, given what came of fetching its document. -/
def answer (fetched : Fetched) : Request → Outcome
  | .query request =>
    match load request.file fetched with
    | .error outcome => outcome
    | .ok tree =>
      let found := request.nodes tree
      { output := if request.json then matchesJson tree found else matchLines tree found }
  | .parse selector json =>
    let outcome := SelectorList.read selector
    { output := if json then readingJson outcome else readingLines outcome }
  | .tree file =>
    match load file fetched with
    | .error outcome => outcome
    | .ok tree => { output := tree.outline NodeId.root }
  | .help => { output := usage }
  | .version => { output := "sieve 0.1.0\n".toList }

/-- The answer to a command line, given what came of fetching the document that it needs. -/
def run (fetched : Fetched) (arguments : List Text) : Outcome :=
  match Request.ofArguments? arguments with
  | none => { code := 2, errors := usage }
  | some request => answer fetched request

end CommandLine

end TreeSelect
