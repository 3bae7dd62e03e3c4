import IngestionQueue.Bytes.Hex
import IngestionQueue.Number.Word
import IngestionQueue.Toml.Basic
import IngestionQueue.Toml.Moment

/-!
# Reading TOML

A document is a list of lines: a header, a key with a value, or nothing, each with a comment if it likes. A
value ends before a comma, a bracket, white space or a comment; strings and brackets aside, that tells where a
value without quotes stops.
-/

namespace IngestionQueue.Toml

/-- A reader takes a beginning of the characters and returns what follows it. -/
abbrev Reader (α : Type) := List Char → Option (α × List Char)

/-- The greatest number of brackets around a value, and of parts of a key, is one less. -/
def depthLimit : Nat := 80

def isBlank (c : Char) : Bool :=
  c == ' ' || c == '\t'

def skipBlanks (cs : List Char) : List Char :=
  cs.dropWhile isBlank

/-- The characters that stand for themselves: the tab, and every one that is no control. -/
def isPlain (c : Char) : Bool :=
  c == '\t' || (0x20 ≤ c.toNat && c.toNat != 0x7F)

/-- What follows a line end. -/
def lineEnd? : List Char → Option (List Char)
  | '\n' :: rest => some rest
  | '\r' :: '\n' :: rest => some rest
  | _ => none

/-- What follows the blanks and the comment at the end of a line. -/
def skipComment (cs : List Char) : List Char :=
  match skipBlanks cs with
  | '#' :: rest => rest.dropWhile isPlain
  | rest => rest

/-- What follows blanks, comments and line ends. -/
def skipLines : Nat → List Char → List Char
  | 0, cs => cs
  | fuel + 1, cs =>
    let rest := skipComment cs
    match lineEnd? rest with
    | some rest => skipLines fuel rest
    | none => rest

/-- What follows blanks and line ends. -/
def skipBlankLines : Nat → List Char → List Char
  | 0, cs => cs
  | fuel + 1, cs =>
    match lineEnd? (skipBlanks cs) with
    | some rest => skipBlankLines fuel rest
    | none => skipBlanks cs

/-! ## Strings -/

def escaped? : Char → Option Char
  | 'b' => some '\x08'
  | 't' => some '\t'
  | 'n' => some '\n'
  | 'f' => some '\x0c'
  | 'r' => some '\r'
  | '"' => some '"'
  | '\\' => some '\\'
  | _ => none

/-- The character whose number is written with hexadecimal digits. -/
def scalar? (digits : List Char) : Option Char := do
  let values ← digits.mapM Hex.digitValue?
  let n := values.foldl (fun n d => 16 * n + d) 0
  if n.isValidChar then return Char.ofNat n else none

/-- The character of an escape, after the backslash. -/
def escape : Reader Char
  | 'u' :: rest =>
    if (rest.take 4).length == 4 then (scalar? (rest.take 4)).map fun c => (c, rest.drop 4) else none
  | 'U' :: rest =>
    if (rest.take 8).length == 8 then (scalar? (rest.take 8)).map fun c => (c, rest.drop 8) else none
  | c :: rest => (escaped? c).map fun d => (d, rest)
  | [] => none

/-- What follows the quotes of a string of one line, up to the closing quote. -/
def basicBody : Nat → Reader (List Char)
  | _, '"' :: rest => some ([], rest)
  | 0, _ => none
  | fuel + 1, '\\' :: rest => do
    let (c, rest) ← escape rest
    let (cs, rest) ← basicBody fuel rest
    return (c :: cs, rest)
  | fuel + 1, c :: rest => do
    if !isPlain c then none
    let (cs, rest) ← basicBody fuel rest
    return (c :: cs, rest)
  | _ + 1, [] => none

/-- What follows the quote of a string without escapes. -/
def literalBody : Reader (List Char)
  | [] => none
  | c :: rest =>
    if c == '\'' then some ([], rest)
    else if isPlain c then (literalBody rest).map fun p => (c :: p.1, p.2)
    else none

/-- The end of a string of several lines, with up to two quotes that still belong to it. -/
def closing? (quote : Char) (cs : List Char) : Option (List Char × List Char) :=
  let run := cs.takeWhile (· == quote)
  if run.length < 3 then none
  else
    let extra := min (run.length - 3) 2
    some (List.replicate extra quote, cs.drop (3 + extra))

/-- What follows the opening quotes of a string of several lines. -/
def multilineBody (quote : Char) (escapes : Bool) : Nat → Reader (List Char)
  | 0, _ => none
  | fuel + 1, cs =>
    match closing? quote cs with
    | some found => some found
    | none =>
      match lineEnd? cs with
      | some rest => (multilineBody quote escapes fuel rest).map fun p => ('\n' :: p.1, p.2)
      | none =>
        match cs with
        | [] => none
        | c :: rest =>
          if escapes && c == '\\' then
            match lineEnd? (skipBlanks rest) with
            | some rest => multilineBody quote escapes fuel (skipBlankLines (rest.length + 1) rest)
            | none => do
              let (d, rest) ← escape rest
              let (ds, rest) ← multilineBody quote escapes fuel rest
              return (d :: ds, rest)
          else if isPlain c then (multilineBody quote escapes fuel rest).map fun p => (c :: p.1, p.2)
          else none

/-- A string of several lines, whose first line end does not count. -/
def multiline (quote : Char) (escapes : Bool) (cs : List Char) : Option (List Char × List Char) :=
  let cs := (lineEnd? cs).getD cs
  multilineBody quote escapes (cs.length + 1) cs

def quotedText : Reader String
  | '"' :: '"' :: '"' :: rest => (multiline '"' true rest).map fun p => (String.ofList p.1, p.2)
  | '\'' :: '\'' :: '\'' :: rest => (multiline '\'' false rest).map fun p => (String.ofList p.1, p.2)
  | '"' :: rest => (basicBody (rest.length + 1) rest).map fun p => (String.ofList p.1, p.2)
  | '\'' :: rest => (literalBody rest).map fun p => (String.ofList p.1, p.2)
  | _ => none

/-! ## Keys -/

def isBareKey (c : Char) : Bool :=
  ('a' ≤ c && c ≤ 'z') || ('A' ≤ c && c ≤ 'Z') || Literal.isDigit c || c == '_' || c == '-'

/-- One part of a key. -/
def keyPart (cs : List Char) : Option (String × List Char) :=
  match cs with
  | '"' :: rest => (basicBody (rest.length + 1) rest).map fun p => (String.ofList p.1, p.2)
  | '\'' :: rest => (literalBody rest).map fun p => (String.ofList p.1, p.2)
  | cs =>
    let name := cs.takeWhile isBareKey
    if name.isEmpty then none else some (String.ofList name, cs.dropWhile isBareKey)

/-- The parts of a dotted key, of which there is at least one, and what follows the blanks after it. -/
def keyParts : Nat → Reader (List String)
  | 0, _ => none
  | fuel + 1, cs => do
    let (name, rest) ← keyPart (skipBlanks cs)
    match skipBlanks rest with
    | '.' :: rest => do
      let (names, rest) ← keyParts fuel rest
      return (name :: names, rest)
    | rest => return ([name], rest)

def key (cs : List Char) : Option (List String × List Char) :=
  keyParts (depthLimit - 1) cs

/-! ## Values without quotes -/

/-- The characters of such a value. -/
def isWordChar (c : Char) : Bool :=
  isBareKey c || c == '+' || c == '.' || c == ':'

/-- Digits with single underscores between them, without the underscores. -/
def digits? (isDigit : Char → Bool) : List Char → Option (List Char)
  | [] => none
  | [c] => if isDigit c then some [c] else none
  | c :: '_' :: d :: rest => if isDigit c then (digits? isDigit (d :: rest)).map (c :: ·) else none
  | c :: d :: rest => if isDigit c then (digits? isDigit (d :: rest)).map (c :: ·) else none

def integerOf (n : Int) : Option Toml :=
  if Word.least ≤ n ∧ n ≤ Word.greatest then some (.integer n) else none

/-- An integer of another base than ten. -/
def based (base : Nat) (isDigit : Char → Bool) (cs : List Char) : Option Toml := do
  let digits ← digits? isDigit cs
  integerOf (Literal.valueOf base (fun c => (Hex.digitValue? c).getD 0) digits)

/-- Digits that do not begin with a needless zero. -/
def wholeDigits? (cs : List Char) : Option (List Char) :=
  match cs with
  | '0' :: _ :: _ => none
  | cs => digits? Literal.isDigit cs

/-- A decimal number without its sign. -/
def decimal (negative : Bool) (cs : List Char) : Option Toml := do
  let isMark (c : Char) : Bool := c == '.' || c == 'e' || c == 'E'
  let whole ← wholeDigits? (cs.takeWhile fun c => !isMark c)
  match cs.dropWhile fun c => !isMark c with
  | [] =>
    let n := Int.ofNat (Literal.valueOf 10 Literal.decimalDigit whole)
    integerOf (if negative then -n else n)
  | mark :: rest =>
    let isExponent (c : Char) : Bool := c == 'e' || c == 'E'
    let fraction ← if mark == '.' then digits? Literal.isDigit (rest.takeWhile fun c => !isExponent c)
      else some []
    let exponent := if mark == '.' then rest.dropWhile fun c => !isExponent c else mark :: rest
    let power ← match exponent with
      | [] => some 0
      | _ :: '+' :: ds => (digits? Literal.isDigit ds).bind Literal.exponent?
      | _ :: '-' :: ds => (digits? Literal.isDigit ds).bind fun ds => Literal.exponent? ('-' :: ds)
      | _ :: ds => (digits? Literal.isDigit ds).bind Literal.exponent?
    match Literal.scaled negative (whole ++ fraction) (power - Int.ofNat fraction.length) with
    | .infinite false => none
    | x => some (.float x)

/-- The value that a word writes. -/
def word (cs : List Char) : Option Toml :=
  match cs with
  | ['t', 'r', 'u', 'e'] => some (.bool true)
  | ['f', 'a', 'l', 's', 'e'] => some (.bool false)
  | ['i', 'n', 'f'] | ['+', 'i', 'n', 'f'] => some (.float (.infinite false))
  | ['-', 'i', 'n', 'f'] => some (.float (.infinite true))
  | ['n', 'a', 'n'] | ['+', 'n', 'a', 'n'] | ['-', 'n', 'a', 'n'] => some (.float .nan)
  | '0' :: 'x' :: rest => based 16 (fun c => (Hex.digitValue? c).isSome) rest
  | '0' :: 'o' :: rest => based 8 (fun c => '0' ≤ c && c ≤ '7') rest
  | '0' :: 'b' :: rest => based 2 (fun c => c == '0' || c == '1') rest
  | '+' :: rest => decimal false rest
  | '-' :: rest => decimal true rest
  | cs =>
    match Moment.text? cs with
    | some text => some (.moment (String.ofList text))
    | none => decimal false cs

/-- A value without quotes. A date may be followed by a blank and a time. -/
def bare (cs : List Char) : Option (Toml × List Char) :=
  let first := cs.takeWhile isWordChar
  let rest := cs.dropWhile isWordChar
  let joined := match (Moment.date first), rest with
    | some (_, []), ' ' :: more =>
      let second := more.takeWhile isWordChar
      if (Moment.text? (first ++ ' ' :: second)).isSome
        then some (first ++ ' ' :: second, more.dropWhile isWordChar) else none
    | _, _ => none
  let (text, rest) := joined.getD (first, rest)
  (word text).map fun v => (v, rest)

/-! ## Values -/

mutual

/-- A value with at most so many brackets around its parts. -/
def value (depth : Nat) : Nat → Reader Toml
  | 0, _ => none
  | fuel + 1, cs =>
    match cs with
    | '"' :: _ | '\'' :: _ => (quotedText cs).map fun p => (.string p.1, p.2)
    | '[' :: rest =>
      if depth = 0 then none
      else (items (depth - 1) fuel rest).map fun p => (.array p.1, p.2)
    | '\x7b' :: rest =>
      if depth = 0 then none
      else match skipBlanks rest with
        | '\x7d' :: rest => some (.table [], rest)
        | rest => (members (depth - 1) fuel [] rest).map fun p => (.table (entriesToToml p.1), p.2)
    | cs => bare cs

/-- The items of an array up to its closing bracket; a comma may follow the last one. -/
def items (depth : Nat) : Nat → Reader (List Toml)
  | 0, _ => none
  | fuel + 1, cs =>
    match skipLines cs.length cs with
    | ']' :: rest => some ([], rest)
    | rest => do
      let (v, rest) ← value depth fuel rest
      match skipLines rest.length rest with
      | ',' :: rest => do
        let (vs, rest) ← items depth fuel rest
        return (v :: vs, rest)
      | ']' :: rest => return ([v], rest)
      | _ => none

/-- The members of a table in braces up to the closing one. -/
def members (depth : Nat) : Nat → Entries → Reader Entries
  | 0, _, _ => none
  | fuel + 1, es, cs => do
    let (path, rest) ← key cs
    match rest with
    | '=' :: rest => do
      let (v, rest) ← value depth fuel (skipBlanks rest)
      let es ← Entries.insert path.dropLast (path.getLastD "") v .header es
      match skipBlanks rest with
      | ',' :: rest => members depth fuel es rest
      | '\x7d' :: rest => return (es, rest)
      | _ => none
    | _ => none

end

/-! ## Lines -/

/-- A header: its path and last key, and whether it is that of an array. -/
def header (cs : List Char) : Option ((List String × Bool) × List Char) := do
  match cs with
  | '[' :: '[' :: rest =>
    let (path, rest) ← key rest
    match rest with
    | ']' :: ']' :: rest => return ((path, true), rest)
    | _ => none
  | '[' :: rest =>
    let (path, rest) ← key rest
    match rest with
    | ']' :: rest => return ((path, false), rest)
    | _ => none
  | _ => none

/-- One line of a document, given the header that it stands under. -/
def line (current : List String) (es : Entries) (cs : List Char) :
    Option ((List String × Entries) × List Char) :=
  match skipBlanks cs with
  | [] => some ((current, es), [])
  | '[' :: rest => do
    let ((path, isArray), rest) ← header ('[' :: rest)
    let define := if isArray then Entries.append else Entries.define
    let es ← define path.dropLast (path.getLastD "") es
    return ((path, es), rest)
  | cs =>
    if cs.head? == some '#' || (lineEnd? cs).isSome then some ((current, es), cs)
    else do
      let (path, rest) ← key cs
      match rest with
      | '=' :: rest =>
        let rest := skipBlanks rest
        let (v, rest) ← value (depthLimit - 1) (2 * rest.length + 2) rest
        let es ← Entries.insertAt current path.dropLast (path.getLastD "") v es
        return ((current, es), rest)
      | _ => none

/-- The lines of a document. -/
def lines : Nat → List String → Entries → List Char → Option Entries
  | 0, _, _, _ => none
  | fuel + 1, current, es, cs => do
    let ((current, es), rest) ← line current es cs
    match skipComment rest with
    | [] => return es
    | rest =>
      let rest ← lineEnd? rest
      lines fuel current es rest

/-- Reads a whole document, with a byte order mark in front of it if it has one. -/
def parse (text : String) : Option (List (String × Toml)) :=
  let cs := match text.toList with
    | c :: rest => if c.toNat == 0xFEFF then rest else c :: rest
    | [] => []
  (lines (cs.length + 1) [] [] cs).map entriesToToml

end IngestionQueue.Toml
