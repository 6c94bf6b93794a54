import TreeSelect.Json.Basic
/-!
# Reading JSON

Reading stands for the reader of a library from outside, and follows its documented behaviour. It
accepts the grammar of JSON: the four characters of space between the parts of a value, the three
words in small letters, strings, arrays and objects, whose members may repeat a name. Arrays and
objects may be nested up to a given depth, which bounds the recursion; within one array or object
the length of the text bounds it. Behind a value that is all of a text only space may stand. Every
other text is refused, and the refusal says whether the text ended too early.

A number is a whole part without superfluous zeros, an optional fraction and an optional exponent.
A number beyond the range of double precision is refused. Its size is judged as that reader judges
it: the digits are gathered into a word of 64 bits as long as they fit, further whole digits only
raise the exponent and further digits of the fraction count for nothing; the word and the power of
ten are each rounded to double precision, and so is their product.

## Main definitions

* `Json.Number.toDouble`: rounding to the precision of a double, with ties to even.
* `Json.Number.exceedsDouble`: whether a word times a power of ten is out of range.
* `Json.Number.read`: a number.
* `Json.readItems`, `Json.readMembers`: what stands within brackets and braces.
* `Json.readValue`, `Json.parse`: a value, and a text that is one value.
-/

namespace TreeSelect

/-! ### Numbers -/

namespace Json.Number

/-- The nearest natural number with at most 53 significant bits, an even significand on a tie. -/
def toDouble (n : Nat) : Nat :=
  let unit := Nat.pow 2 (n.log2 + 1 - 53)
  let whole := n / unit
  let twice := 2 * (n % unit)
  if unit < twice || (unit == twice && whole % 2 == 1) then (whole + 1) * unit else whole * unit

/-- Gathers digits into a word of 64 bits until one does not fit: the word and the number of
digits left over. -/
def gather : Nat → List Nat → Nat × Nat
  | word, [] => (word, 0)
  | word, d :: digits =>
    if word * 10 + d < Nat.pow 2 64 then gather (word * 10 + d) digits
    else (word, digits.length + 1)

/-- Whether a word times a power of ten rounds to more than the greatest double. -/
def exceedsDouble (word : Nat) (exponent : Int) : Bool :=
  match exponent with
  | .negSucc _ => false
  | .ofNat e =>
    word != 0 && (308 < e || Nat.pow 2 1024 ≤ toDouble (toDouble word * toDouble (Nat.pow 10 e)))

/-- The digits ahead and the text behind them. -/
def digits (t : Text) : List Nat × Text :=
  ((t.takeWhile Char.isDigit).map fun c => c.toNat - 48, t.dropWhile Char.isDigit)

/-- Reads one digit or more. -/
def readDigits (t : Text) : Except Fault (List Nat × Text) :=
  match digits t with
  | ([], []) => .error .endOfText
  | ([], _ :: _) => .error .malformed
  | found => .ok found

/-- Reads the whole part: a zero alone, or digits that do not start with one. -/
def readWhole (t : Text) : Except Fault (List Nat × Text) :=
  match readDigits t with
  | .ok (0 :: _ :: _, _) => .error .malformed
  | found => found

/-- Reads the fraction, if there is one. -/
def readFraction : Text → Except Fault (List Nat × Text)
  | '.' :: rest => readDigits rest
  | t => .ok ([], t)

/-- Reads the sign of an exponent, if there is one: whether it is negative. -/
def readSign : Text → Bool × Text
  | '+' :: rest => (false, rest)
  | '-' :: rest => (true, rest)
  | t => (false, t)

/-- The number that digits spell. -/
def ofDigits (ds : List Nat) : Nat :=
  ds.foldl (fun n d => n * 10 + d) 0

/-- Reads the exponent, if there is one. -/
def readExponent (t : Text) : Except Fault (Int × Text) :=
  match t with
  | [] => .ok (0, t)
  | c :: rest =>
    if c = 'e' ∨ c = 'E' then
      let (negative, rest) := readSign rest
      (readDigits rest).map fun (ds, rest) =>
        (if negative then -(ofDigits ds : Int) else ofDigits ds, rest)
    else .ok (0, t)

/-- Reads a number without a sign and says what follows it. -/
def readUnsigned (t : Text) : Except Fault Text :=
  match readWhole t with
  | .error e => .error e
  | .ok (whole, t) =>
    match readFraction t with
    | .error e => .error e
    | .ok (fraction, t) =>
      match readExponent t with
      | .error e => .error e
      | .ok (exponent, t) =>
        let (word, surplus) := gather 0 whole
        let (word, unused) := gather word fraction
        if exceedsDouble word (exponent + surplus - (fraction.length - unused)) then
          .error .malformed
        else .ok t

/-- Reads a number: its text and what follows it. -/
def read (t : Text) : Except Fault (Text × Text) :=
  let unsigned := match t with
    | '-' :: rest => rest
    | _ => t
  (readUnsigned unsigned).map fun rest => (t.take (t.length - rest.length), rest)

end Json.Number

/-! ### Values -/

namespace Json

/-- Whether a character is space between the parts of a value. -/
def isSpace (c : Char) : Bool :=
  c == ' ' || c == '\n' || c == '\t' || c == '\r'

/-- The text behind the space ahead. -/
def skipSpace (t : Text) : Text :=
  t.dropWhile isSpace

/-- Reads items and the bracket behind them, an item being next; `taken` holds the items so far,
the last one first. -/
def readItems (item : Text → Except Fault (Json × Text)) (taken : List Json) :
    Nat → Text → Except Fault (List Json × Text)
  | 0, _ => .error .endOfText
  | bound + 1, t =>
    match item t with
    | .error e => .error e
    | .ok (value, behind) =>
      match skipSpace behind with
      | [] => .error .endOfText
      | ',' :: rest => readItems item (value :: taken) bound rest
      | ']' :: rest => .ok ((value :: taken).reverse, rest)
      | _ :: _ => .error .malformed

/-- Reads the name of a member and the colon behind it. -/
def readName (t : Text) : Except Fault (Text × Text) :=
  match skipSpace t with
  | [] => .error .endOfText
  | '"' :: rest =>
    match Quoted.decode rest with
    | .error e => .error e
    | .ok (name, behind) => (expect [':'] (skipSpace behind)).map fun rest => (name, rest)
  | _ :: _ => .error .malformed

/-- Reads members and the brace behind them, a member being next; `taken` holds the members so
far, the last one first. -/
def readMembers (item : Text → Except Fault (Json × Text)) (taken : List (Text × Json)) :
    Nat → Text → Except Fault (List (Text × Json) × Text)
  | 0, _ => .error .endOfText
  | bound + 1, t =>
    match readName t with
    | .error e => .error e
    | .ok (name, atValue) =>
      match item atValue with
      | .error e => .error e
      | .ok (value, behind) =>
        match skipSpace behind with
        | [] => .error .endOfText
        | ',' :: rest => readMembers item ((name, value) :: taken) bound rest
        | '\x7d' :: rest => .ok (((name, value) :: taken).reverse, rest)
        | _ :: _ => .error .malformed

/-- Reads an array from behind its bracket. -/
def readArray (item : Text → Except Fault (Json × Text)) (t : Text) : Except Fault (Json × Text) :=
  match skipSpace t with
  | ']' :: rest => .ok (array [], rest)
  | start => (readItems item [] (start.length + 1) start).map fun (items, rest) =>
      (array items, rest)

/-- Reads an object from behind its brace. -/
def readObject (item : Text → Except Fault (Json × Text)) (t : Text) :
    Except Fault (Json × Text) :=
  match skipSpace t with
  | '\x7d' :: rest => .ok (object [], rest)
  | start => (readMembers item [] (start.length + 1) start).map fun (members, rest) =>
      (object members, rest)

/-- Reads a value in which arrays and objects are nested at most `depth` deep. -/
def readValue (depth : Nat) (t : Text) : Except Fault (Json × Text) :=
  match skipSpace t with
  | [] => .error .endOfText
  | 'n' :: rest => (expect ['u', 'l', 'l'] rest).map fun rest => (null, rest)
  | 't' :: rest => (expect ['r', 'u', 'e'] rest).map fun rest => (bool true, rest)
  | 'f' :: rest => (expect ['a', 'l', 's', 'e'] rest).map fun rest => (bool false, rest)
  | '"' :: rest => (Quoted.decode rest).map fun (value, rest) => (string value, rest)
  | '[' :: rest =>
    match depth with
    | 0 => .error .malformed
    | depth + 1 => readArray (readValue depth) rest
  | '\x7b' :: rest =>
    match depth with
    | 0 => .error .malformed
    | depth + 1 => readObject (readValue depth) rest
  | c :: rest =>
    if c = '-' ∨ c.isDigit then
      (Number.read (c :: rest)).map fun (literal, rest) => (number literal, rest)
    else .error .malformed

/-- Reads a text that is one value and nothing else but space. -/
def parse (depth : Nat) (t : Text) : Except Fault Json :=
  match readValue depth t with
  | .error e => .error e
  | .ok (value, behind) => if (skipSpace behind).isEmpty then .ok value else .error .malformed

end Json

end TreeSelect
