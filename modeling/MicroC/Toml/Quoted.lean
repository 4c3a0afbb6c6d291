import MicroC.Toml.Lexeme

/-!
Strings of TOML documents: on one line or over several, with escapes or without.
-/

namespace MicroC.Toml

/-- The character with a code point written in hexadecimal digits. -/
def codePoint? (ds : List Char) : Option Char :=
  let n := valueOf 16 ds
  if ds.all (isDigit 16) && (n < 0xD800 || 0xDFFF < n && n < 0x110000) then some (Char.ofNat n)
  else none

/-- The character that an escape of one letter stands for. -/
def escaped? : Char → Option Char
  | 'b' => some '\x08'
  | 't' => some '\t'
  | 'n' => some '\n'
  | 'f' => some '\x0c'
  | 'r' => some '\r'
  | '"' => some '"'
  | '\\' => some '\\'
  | _ => none

/-- Puts a character in front of what a reader of text has read. -/
def consRead (c : Char) (r : Option (List Char × List Char)) : Option (List Char × List Char) :=
  r.map fun (text, rest) => (c :: text, rest)

/-- A string after its opening quote. -/
def basicString : Reader (List Char)
  | [] => none
  | '"' :: rest => some ([], rest)
  | '\\' :: 'u' :: a :: b :: c :: d :: rest => do
    let char ← codePoint? [a, b, c, d]
    consRead char (basicString rest)
  | '\\' :: 'U' :: a :: b :: c :: d :: e :: f :: g :: h :: rest => do
    let char ← codePoint? [a, b, c, d, e, f, g, h]
    consRead char (basicString rest)
  | '\\' :: c :: rest => do
    let char ← escaped? c
    consRead char (basicString rest)
  | c :: rest => if isText c then consRead c (basicString rest) else none

/-- A string without escapes, after its opening quote. -/
def literalString : Reader (List Char)
  | [] => none
  | '\'' :: rest => some ([], rest)
  | c :: rest => if isText c then consRead c (literalString rest) else none

/-- Whether a line ends here, blanks apart. -/
def endsLine (cs : List Char) : Bool := (lineEnd? (skipBlanks cs)).isSome

/-- A string of several lines after its opening quotes. Up to two quotes may stand before the
closing ones; after a backslash at the end of a line, blanks and line ends are skipped. -/
def multilineBasic : Bool → Reader (List Char)
  | _, [] => none
  | _, '"' :: '"' :: '"' :: '"' :: '"' :: rest => some (['"', '"'], rest)
  | _, '"' :: '"' :: '"' :: '"' :: rest => some (['"'], rest)
  | _, '"' :: '"' :: '"' :: rest => some ([], rest)
  | _, '\\' :: 'u' :: a :: b :: c :: d :: rest => do
    let char ← codePoint? [a, b, c, d]
    consRead char (multilineBasic false rest)
  | _, '\\' :: 'U' :: a :: b :: c :: d :: e :: f :: g :: h :: rest => do
    let char ← codePoint? [a, b, c, d, e, f, g, h]
    consRead char (multilineBasic false rest)
  | _, '\\' :: c :: rest =>
    match escaped? c with
    | some char => consRead char (multilineBasic false rest)
    | none => if endsLine (c :: rest) then multilineBasic true (c :: rest) else none
  | skipping, '\r' :: '\n' :: rest =>
    if skipping then multilineBasic true rest else consRead '\n' (multilineBasic false rest)
  | skipping, c :: rest =>
    if skipping && (isBlank c || c = '\n') then multilineBasic true rest
    else if isText c || c = '\n' then consRead c (multilineBasic false rest)
    else none

/-- A string of several lines without escapes, after its opening quotes. -/
def multilineLiteral : Reader (List Char)
  | [] => none
  | '\'' :: '\'' :: '\'' :: '\'' :: '\'' :: rest => some (['\'', '\''], rest)
  | '\'' :: '\'' :: '\'' :: '\'' :: rest => some (['\''], rest)
  | '\'' :: '\'' :: '\'' :: rest => some ([], rest)
  | '\r' :: '\n' :: rest => consRead '\n' (multilineLiteral rest)
  | c :: rest => if isText c || c = '\n' then consRead c (multilineLiteral rest) else none

/-- Removes the line end after opening quotes. -/
def skipLineEnd (cs : List Char) : List Char := (lineEnd? cs).getD cs

def string : Reader String
  | '"' :: '"' :: '"' :: rest => ofChars (multilineBasic false (skipLineEnd rest))
  | '"' :: rest => ofChars (basicString rest)
  | '\'' :: '\'' :: '\'' :: rest => ofChars (multilineLiteral (skipLineEnd rest))
  | '\'' :: rest => ofChars (literalString rest)
  | _ => none
where
  ofChars (r : Option (List Char × List Char)) : Option (String × List Char) :=
    r.map fun (text, rest) => (String.ofList text, rest)

end MicroC.Toml
