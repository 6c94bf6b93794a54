import TreeSelect.Query.Match
/-!
# Arguments

The arguments of a command are operands, which are told apart by their order, and options, which
start with two hyphens and stand anywhere. A switch stands alone; a setting has a value, behind an
equals sign or as the next argument. No option may be given twice. After the argument `--` every
argument is an operand, also one that starts with a hyphen.

Arguments are read from left to right, and the first that is not in order decides.

## Main definitions

* `Grammar`, `Given.read`: what a command takes, and what it is given.
* `Request`, `Request.ofArguments?`: what the whole command line asks for.
-/

namespace TreeSelect.CommandLine

/-- What a command takes. -/
structure Grammar where
  /-- The options that stand alone. -/
  switches : List Text := []
  /-- The options with a value, and the values that they take. -/
  settings : List (Text × (Text → Bool)) := []
  /-- The operands in order, each by the texts that it may be. -/
  operands : List (Text → Bool) := []

/-- What a command is given. -/
structure Given where
  /-- The switches. -/
  switches : List Text := []
  /-- The settings with their values. -/
  settings : List (Text × Text) := []
  /-- The operands in order. -/
  operands : List Text := []
deriving DecidableEq, Repr

/-- Why arguments are not read to their end. -/
inductive Stop where
  /-- Help is asked for. -/
  | help
  /-- An argument is not in order. -/
  | refused
deriving DecidableEq, Repr

namespace Given

/-- The value of a setting. -/
def value? (given : Given) (name : Text) : Option Text :=
  (given.settings.find? fun setting => setting.1 == name).map Prod.snd

/-- Adds a switch. -/
def addSwitch (given : Given) (name : Text) : Except Stop Given :=
  if given.switches.contains name then .error .refused
  else .ok { given with switches := name :: given.switches }

/-- Adds a setting whose values are limited. -/
def addSetting (given : Given) (name : Text) (allowed : Text → Bool) (value : Text) :
    Except Stop Given :=
  if (given.value? name).isSome || !allowed value then .error .refused
  else .ok { given with settings := (name, value) :: given.settings }

/-- Adds the next operand. -/
def addOperand (g : Grammar) (given : Given) (operand : Text) : Except Stop Given :=
  match g.operands[given.operands.length]? with
  | some allowed =>
    if allowed operand then .ok { given with operands := given.operands ++ [operand] }
    else .error .refused
  | none => .error .refused

/-- Whether an argument can be the value of the setting before it. -/
def isSeparateValue : Text → Bool
  | '-' :: _ :: _ => false
  | _ => true

/-- The name of an option without its hyphens, and the value behind its equals sign. -/
def cutOption (option : Text) : Text × Option Text :=
  match option.dropWhile (· != '=') with
  | [] => (option, none)
  | _ :: value => (option.takeWhile (· != '='), some value)

/-- Reads arguments behind those that are given already. -/
def readOn (g : Grammar) (given : Given) : List Text → Except Stop Given
  | [] => .ok given
  | ['-', '-'] :: rest => rest.foldlM (addOperand g) given
  | ('-' :: '-' :: option) :: rest =>
    match cutOption option with
    | (name, none) =>
      if name = "help".toList then .error .help
      else if g.switches.contains name then
        match given.addSwitch name with
        | .error stop => .error stop
        | .ok given => readOn g given rest
      else
        match g.settings.lookup name, rest with
        | some allowed, value :: rest =>
          if isSeparateValue value then
            match given.addSetting name allowed value with
            | .error stop => .error stop
            | .ok given => readOn g given rest
          else .error .refused
        | _, _ => .error .refused
    | (name, some value) =>
      match g.settings.lookup name with
      | some allowed =>
        match given.addSetting name allowed value with
        | .error stop => .error stop
        | .ok given => readOn g given rest
      | none => .error .refused
  | ('-' :: 'h' :: _) :: _ => .error .help
  | ('-' :: _ :: _) :: _ => .error .refused
  | operand :: rest =>
    match addOperand g given operand with
    | .error stop => .error stop
    | .ok given => readOn g given rest

/-- Reads arguments, none of whose operands may be left out. -/
def read (g : Grammar) (arguments : List Text) : Except Stop Given :=
  match readOn g {} arguments with
  | .error stop => .error stop
  | .ok given => if given.operands.length = g.operands.length then .ok given else .error .refused

end Given

/-- How a query is asked for. -/
structure QueryRequest where
  /-- The document's file. -/
  file : Text
  /-- The selectors. -/
  selector : Text
  /-- The selectors whose first match is the context, if that is not the root. -/
  context : Option Text
  /-- The options of the query. -/
  options : Options
  /-- Whether repeated nodes are left out. -/
  unique : Bool
  /-- Whether the answer is written as JSON. -/
  json : Bool
deriving DecidableEq, Repr

/-- What a command line asks for. -/
inductive Request where
  /-- The nodes that a selector finds in a document. -/
  | query (request : QueryRequest)
  /-- How a selector is read. -/
  | parse (selector : Text) (json : Bool)
  /-- The outline of a document. -/
  | tree (file : Text)
  /-- How the program is used. -/
  | help
  /-- The name and the version of the program. -/
  | version
deriving DecidableEq, Repr

namespace Request

/-- A file is any text but the empty one. -/
def isFile (t : Text) : Bool :=
  !t.isEmpty

/-- A selector is any text: one that cannot be read finds nothing. -/
def isSelector (_ : Text) : Bool :=
  true

/-- What `query` takes. -/
def queryGrammar : Grammar where
  switches := ["every-anchor".toList, "unique".toList, "json".toList]
  settings :=
    [("context".toList, isSelector),
      ("sibling-result".toList, fun value => (SiblingResult.ofText? value).isSome)]
  operands := [isFile, isSelector]

/-- What `parse` takes. -/
def parseGrammar : Grammar where
  switches := ["json".toList]
  operands := [isSelector]

/-- What `tree` takes. -/
def treeGrammar : Grammar where
  operands := [isFile]

/-- The query that arguments describe. -/
def ofQueryArguments? (given : Given) : Option Request :=
  match given.operands with
  | [file, selector] =>
    some <| .query
      { file, selector
        context := given.value? "context".toList
        options :=
          { anchorMode := if given.switches.contains "every-anchor".toList then .every else .first
            siblingResult :=
              ((given.value? "sibling-result".toList).bind SiblingResult.ofText?).getD .anchor }
        unique := given.switches.contains "unique".toList
        json := given.switches.contains "json".toList }
  | _ => none

/-- The reading of a selector that arguments describe. -/
def ofParseArguments? (given : Given) : Option Request :=
  given.operands.head?.map fun selector => .parse selector (given.switches.contains "json".toList)

/-- The outline that arguments describe. -/
def ofTreeArguments? (given : Given) : Option Request :=
  given.operands.head?.map .tree

/-- Reads the arguments of a command. -/
def ofCommand? (g : Grammar) (build : Given → Option Request) (arguments : List Text) :
    Option Request :=
  match Given.read g arguments with
  | .ok given => build given
  | .error .help => some .help
  | .error .refused => none

/-- The commands, with what each takes and what it asks for. -/
def commands : List (Text × Grammar × (Given → Option Request)) :=
  [("query".toList, queryGrammar, ofQueryArguments?),
    ("parse".toList, parseGrammar, ofParseArguments?),
    ("tree".toList, treeGrammar, ofTreeArguments?)]

/-- Whether arguments name one command or none, so that there is help on them. -/
def isHelpTopic : List Text → Bool
  | [] => true
  | [name] => name == "help".toList || (commands.lookup name).isSome
  | _ => false

/-- What a command line asks for, unless it is refused. -/
def ofArguments? : List Text → Option Request
  | [] => none
  | first :: rest =>
    match commands.lookup first with
    | some (g, build) => ofCommand? g build rest
    | none =>
      if first = "--version".toList ∨ ['-', 'V'].isPrefixOf first then some .version
      else if first = "--help".toList ∨ ['-', 'h'].isPrefixOf first then some .help
      else if first = "help".toList ∧ isHelpTopic rest then some .help
      else none

end Request

end TreeSelect.CommandLine
