import MicroC.Toml.Moment
import MicroC.Toml.Number
import MicroC.Toml.Quoted

/-!
Reading TOML documents: keys, values, and the lines that put values into tables.
-/

namespace MicroC.Toml

/-- How deep arrays and inline tables may stand in one another, and how many parts a key may
have. -/
def maxNesting : Nat := 79

/-! ### Keys -/

def isBareKey (c : Char) : Bool :=
  c.isAlphanum || c = '_' || c = '-'

def simpleKey : Reader String
  | '"' :: rest => (basicString rest).map fun (text, rest) => (String.ofList text, rest)
  | '\'' :: rest => (literalString rest).map fun (text, rest) => (String.ofList text, rest)
  | cs =>
    match cs.takeWhile isBareKey with
    | [] => none
    | key => some (String.ofList key, cs.dropWhile isBareKey)

/-- The parts of a dotted key, at most `n`. -/
def keyParts : Nat → Reader (List String)
  | 0, _ => none
  | n + 1, cs => do
    let (part, rest) ← simpleKey (skipBlanks cs)
    match skipBlanks rest with
    | '.' :: rest =>
      let (parts, rest) ← keyParts n rest
      return (part :: parts, rest)
    | rest => return ([part], rest)

/-- A dotted key, with the blanks around it. -/
def key : Reader (List String) := keyParts maxNesting

/-! ### Values -/

/-- A value that has no parts. -/
def simpleValue : Reader Value
  | cs@('"' :: _) | cs@('\'' :: _) => (string cs).map fun (text, rest) => (.string text, rest)
  | 't' :: 'r' :: 'u' :: 'e' :: rest => some (.boolean true, rest)
  | 'f' :: 'a' :: 'l' :: 's' :: 'e' :: rest => some (.boolean false, rest)
  | cs =>
    match moment cs with
    | some ((), rest) => some (.moment, rest)
    | none => number cs

/-- The items of an array up to its end, at most `n`; a comma may follow the last one. -/
def items (item : Reader Value) : Nat → Reader (List Value)
  | 0, _ => none
  | _ + 1, ']' :: rest => some ([], rest)
  | n + 1, cs => do
    let (v, rest) ← item cs
    match skipSpace rest with
    | ']' :: rest => return ([v], rest)
    | ',' :: rest =>
      let (vs, rest) ← items item n (skipSpace rest)
      return (v :: vs, rest)
    | _ => none

/-- The pairs of an inline table up to its end, at most `n`, after those already read. -/
def pairs (item : Reader Value) : Nat → Entries → Reader Entries
  | 0, _, _ => none
  | n + 1, entries, cs => do
    let (path, rest) ← key cs
    match rest with
    | '=' :: rest =>
      let (v, rest) ← item (skipBlanks rest)
      let entries ← entries.put v path
      match skipBlanks rest with
      | '\x7d' :: rest => return (entries, rest)
      | ',' :: rest => pairs item n entries rest
      | _ => none
    | _ => none

/-- A value in which arrays and inline tables stand in one another at most `depth` deep. Each
of their parts has at least one character. -/
def value : Nat → Reader Value
  | 0, cs => simpleValue cs
  | depth + 1, cs =>
    match cs with
    | '[' :: rest =>
      (items (value depth) (rest.length + 1) (skipSpace rest)).map fun (vs, rest) =>
        (.array vs, rest)
    | '\x7b' :: rest =>
      match skipBlanks rest with
      | '\x7d' :: rest => some (.table .inline [], rest)
      | rest =>
        (pairs (value depth) (rest.length + 1) [] rest).map fun (entries, rest) =>
          (.table .inline entries, rest)
    | cs => simpleValue cs

/-! ### Documents -/

/-- One line: the table that is open after it, all entries, and the rest of the document. -/
def line (current : List String) (entries : Entries) (cs : List Char) :
    Option (List String × Entries × List Char) := do
  match skipBlanks cs with
  | '[' :: '[' :: rest =>
    let (path, rest) ← key rest
    match rest with
    | ']' :: ']' :: rest =>
      let entries ← entries.openNext path
      return (path, entries, ← lineRest? rest)
    | _ => none
  | '[' :: rest =>
    let (path, rest) ← key rest
    match rest with
    | ']' :: rest =>
      let entries ← entries.openTable path
      return (path, entries, ← lineRest? rest)
    | _ => none
  | [] => return (current, entries, [])
  | c :: rest =>
    if c = '#' || c = '\n' || c = '\r' then return (current, entries, ← lineRest? (c :: rest))
    else
      let (path, rest) ← key (c :: rest)
      match rest with
      | '=' :: rest =>
        let (v, rest) ← value maxNesting (skipBlanks rest)
        let entries ← entries.update (·.put v path) current
        return (current, entries, ← lineRest? rest)
      | _ => none

/-- The lines of a document, at most `n`. -/
def lines : Nat → List String → Entries → List Char → Option Entries
  | _, _, entries, [] => some entries
  | 0, _, _, _ => none
  | n + 1, current, entries, cs => do
    let (current, entries, rest) ← line current entries cs
    lines n current entries rest

/-- The entries of a document, which may start with a byte order mark. Each line has at least
one character. -/
def read (text : String) : Option Entries :=
  let cs := match text.toList with
    | '\uFEFF' :: rest => rest
    | cs => cs
  lines (cs.length + 1) [] [] cs

end MicroC.Toml
