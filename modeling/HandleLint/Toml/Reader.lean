import HandleLint.Toml.Literal

/-!
# Reading TOML

A text is read into the lines that say something, and those make up the document. Each scanner
takes the characters from where it begins and gives what it read with the characters after it.

* `Toml.basic?`, `Toml.multilineBasic?`, `Toml.literalString?`, `Toml.multilineLiteral?`: strings
  after their opening quotes;
* `Toml.key?`, `Toml.dottedKey?`: keys;
* `Toml.value?`: values, with the arrays and inline tables among them;
* `Toml.parse?`: the top table of a whole document.
-/

namespace HandleLint.Toml

/-- How deep arrays and inline tables nest, and how many parts a key has, stays below this. -/
def nestingBound : Nat := 80

/-! ## Between things -/

def isSpace (c : Char) : Bool :=
  c = ' ' || c = '\t'

def skipSpace (cs : List Char) : List Char :=
  cs.dropWhile isSpace

/-- Whether a character may stand in a comment: no control character but the tab. -/
def isPlain (c : Char) : Bool :=
  c = '\t' || (' ' ≤ c && c ≠ '\x7f')

/-- What follows a line break. -/
def newline? : List Char → Option (List Char)
  | '\n' :: rest => some rest
  | '\r' :: '\n' :: rest => some rest
  | _ => none

/-- What follows the rest of a line on which only a comment may still stand. -/
def lineEnd? (cs : List Char) : Option (List Char) :=
  let rest :=
    match skipSpace cs with
    | '#' :: comment => comment.dropWhile isPlain
    | cs => cs
  if rest.isEmpty then some [] else newline? rest

/-- Skips spaces, line breaks and comments, as they may stand in an array. -/
def skipTrivia? (inComment : Bool) : List Char → Option (List Char)
  | [] => some []
  | '\n' :: rest => skipTrivia? false rest
  | '\r' :: '\n' :: rest => skipTrivia? false rest
  | c :: rest =>
    if inComment then if isPlain c then skipTrivia? true rest else none
    else if c = '#' then skipTrivia? true rest
    else if isSpace c then skipTrivia? false rest
    else some (c :: rest)

/-! ## Strings -/

/-- The character with a code in hexadecimal, unless it is a surrogate or past all codes. -/
def charOfHex? (digits : List Char) : Option Char :=
  let code := digitsValue 16 digits
  if digits.all isHexDigit ∧ code.isValidChar then some (Char.ofNat code) else none

/-- The character that an escape stands for, after its backslash. -/
def simpleEscape? : Char → Option Char
  | 'b' => some '\x08'
  | 't' => some '\t'
  | 'n' => some '\n'
  | 'f' => some '\x0c'
  | 'r' => some '\r'
  | '"' => some '"'
  | '\\' => some '\\'
  | _ => none

/-- Puts a character before the text that a scanner read. -/
def before (c : Char) (read : Option (List Char × List Char)) : Option (List Char × List Char) :=
  read.map fun (text, rest) => (c :: text, rest)

/-- A string on one line, up to its quote. -/
def basic? : List Char → Option (List Char × List Char)
  | [] => none
  | '"' :: rest => some ([], rest)
  | '\\' :: 'u' :: a :: b :: c :: d :: rest =>
    (charOfHex? [a, b, c, d]).bind fun char => before char (basic? rest)
  | '\\' :: 'U' :: a :: b :: c :: d :: e :: f :: g :: h :: rest =>
    (charOfHex? [a, b, c, d, e, f, g, h]).bind fun char => before char (basic? rest)
  | '\\' :: c :: rest => (simpleEscape? c).bind fun char => before char (basic? rest)
  | c :: rest => if isPlain c ∧ c ≠ '\\' then before c (basic? rest) else none

/-- Where a string over several lines is. -/
inductive Multiline
  | text
  /-- After a backslash that ends a line. -/
  | lineEnd
  /-- In the blank space after such a line. -/
  | blank
  deriving DecidableEq

/-- A string over several lines, up to its three quotes, before which two more may stand. -/
def multilineBasic? : Multiline → List Char → Option (List Char × List Char)
  | _, [] => none
  | .lineEnd, '\n' :: rest => multilineBasic? .blank rest
  | .lineEnd, '\r' :: '\n' :: rest => multilineBasic? .blank rest
  | .lineEnd, c :: rest => if isSpace c then multilineBasic? .lineEnd rest else none
  | state, '\n' :: rest =>
    if state = .blank then multilineBasic? .blank rest else before '\n' (multilineBasic? .text rest)
  | state, '\r' :: '\n' :: rest =>
    if state = .blank then multilineBasic? .blank rest else before '\n' (multilineBasic? .text rest)
  | _, '"' :: '"' :: '"' :: '"' :: '"' :: rest => some (['"', '"'], rest)
  | _, '"' :: '"' :: '"' :: '"' :: rest => some (['"'], rest)
  | _, '"' :: '"' :: '"' :: rest => some ([], rest)
  | _, '"' :: rest => before '"' (multilineBasic? .text rest)
  | _, '\\' :: 'u' :: a :: b :: c :: d :: rest =>
    (charOfHex? [a, b, c, d]).bind fun char => before char (multilineBasic? .text rest)
  | _, '\\' :: 'U' :: a :: b :: c :: d :: e :: f :: g :: h :: rest =>
    (charOfHex? [a, b, c, d, e, f, g, h]).bind fun char => before char (multilineBasic? .text rest)
  | _, '\\' :: '\n' :: rest => multilineBasic? .blank rest
  | _, '\\' :: '\r' :: '\n' :: rest => multilineBasic? .blank rest
  | _, '\\' :: c :: rest =>
    if isSpace c then multilineBasic? .lineEnd rest
    else (simpleEscape? c).bind fun char => before char (multilineBasic? .text rest)
  | state, c :: rest =>
    if isSpace c ∧ state = .blank then multilineBasic? .blank rest
    else if isPlain c ∧ c ≠ '\\' then before c (multilineBasic? .text rest)
    else none

/-- A string on one line in which nothing is escaped, up to its apostrophe. -/
def literalString? : List Char → Option (List Char × List Char)
  | [] => none
  | '\'' :: rest => some ([], rest)
  | c :: rest => if isPlain c then before c (literalString? rest) else none

/-- A string over several lines in which nothing is escaped. -/
def multilineLiteral? : List Char → Option (List Char × List Char)
  | [] => none
  | '\'' :: '\'' :: '\'' :: '\'' :: '\'' :: rest => some (['\'', '\''], rest)
  | '\'' :: '\'' :: '\'' :: '\'' :: rest => some (['\''], rest)
  | '\'' :: '\'' :: '\'' :: rest => some ([], rest)
  | '\n' :: rest => before '\n' (multilineLiteral? rest)
  | '\r' :: '\n' :: rest => before '\n' (multilineLiteral? rest)
  | c :: rest => if isPlain c then before c (multilineLiteral? rest) else none

/-- What follows a line break, if there is one: it may stand after the three opening quotes. -/
def withoutNewline (cs : List Char) : List Char :=
  (newline? cs).getD cs

/-- A string of any form. -/
def string? : List Char → Option (List Char × List Char)
  | '"' :: '"' :: '"' :: rest => multilineBasic? .text (withoutNewline rest)
  | '"' :: rest => basic? rest
  | '\'' :: '\'' :: '\'' :: rest => multilineLiteral? (withoutNewline rest)
  | '\'' :: rest => literalString? rest
  | _ => none

/-! ## Keys -/

def isBareKey (c : Char) : Bool :=
  c.isAlphanum || c = '_' || c = '-'

def key? : List Char → Option (List Char × List Char)
  | '"' :: rest => basic? rest
  | '\'' :: rest => literalString? rest
  | cs =>
    let key := cs.takeWhile isBareKey
    if key.isEmpty then none else some (key, cs.dropWhile isBareKey)

/-- Keys with dots between them and spaces around them, at most as many as `room`. -/
def keys? : Nat → List Char → Option (List String × List Char)
  | 0, _ => none
  | room + 1, cs => do
    let (key, rest) ← key? (skipSpace cs)
    match skipSpace rest with
    | '.' :: rest =>
      let (keys, rest) ← keys? room rest
      return (String.ofList key :: keys, rest)
    | rest => return ([String.ofList key], rest)

def dottedKey? (cs : List Char) : Option (List String × List Char) :=
  keys? (nestingBound - 1) cs

/-! ## Values -/

/-- Whether a character may stand in a word. -/
def isWord (c : Char) : Bool :=
  c.isAlphanum || c = '_' || c = '-' || c = '+' || c = '.' || c = ':'

/-- A value that is a word. A date may be followed by a space and the time of day. -/
def word? (cs : List Char) : Option (Value × List Char) :=
  let word := cs.takeWhile isWord
  let rest := cs.dropWhile isWord
  match date? word, rest with
  | some [], ' ' :: after =>
    let time := after.takeWhile isWord
    if isTimeOfDate time then
      some (.datetime (String.ofList (word ++ ' ' :: time)), after.dropWhile isWord)
    else some (.datetime (String.ofList word), rest)
  | _, _ => (literal? word).map fun value => (value, rest)

mutual

/-- A value that nests containers at most `room` deep. Each step is charged to `fuel`. -/
def valueFrom? : (fuel room : Nat) → List Char → Option (Value × List Char)
  | 0, _, _ => none
  | fuel + 1, room, cs =>
    match cs with
    | '[' :: rest =>
      if room = 0 then none
      else (itemsFrom? fuel (room - 1) rest).map fun (items, rest) => (.array items, rest)
    | '{' :: rest =>
      if room = 0 then none
      else
        match skipSpace rest with
        | '}' :: rest => some (.table [], rest)
        | rest => do
          let (pairs, rest) ← pairsFrom? fuel (room - 1) rest
          return (← Value.inlineTable? pairs, rest)
    | '"' :: _ | '\'' :: _ =>
      (string? cs).map fun (text, rest) => (.string (String.ofList text), rest)
    | _ => word? cs

/-- The items of an array up to its bracket; a comma may follow the last one. -/
def itemsFrom? : (fuel room : Nat) → List Char → Option (List Value × List Char)
  | 0, _, _ => none
  | fuel + 1, room, cs => do
    match ← skipTrivia? false cs with
    | ']' :: rest => return ([], rest)
    | cs =>
      let (item, rest) ← valueFrom? fuel room cs
      match ← skipTrivia? false rest with
      | ']' :: rest => return ([item], rest)
      | ',' :: rest =>
        let (items, rest) ← itemsFrom? fuel room rest
        return (item :: items, rest)
      | _ => none

/-- The keys of an inline table with their values, at least one, up to its brace. -/
def pairsFrom? : (fuel room : Nat) → List Char →
    Option (List (List String × String × Value) × List Char)
  | 0, _, _ => none
  | fuel + 1, room, cs => do
    let (keys, '=' :: rest) ← dottedKey? cs | none
    let (value, rest) ← valueFrom? fuel room (skipSpace rest)
    let pair := (keys.dropLast, keys.getLast?.getD "", value)
    match skipSpace rest with
    | '}' :: rest => return ([pair], rest)
    | ',' :: rest =>
      let (pairs, rest) ← pairsFrom? fuel room rest
      return (pair :: pairs, rest)
    | _ => none

end

/-- A value. Between two steps without progress a character is read, so twice as many steps as
there are characters are enough. -/
def value? (cs : List Char) : Option (Value × List Char) :=
  valueFrom? (2 * cs.length + 2) (nestingBound - 1) cs

/-! ## Documents -/

/-- One line that is not blank, without its end. -/
def statement? (cs : List Char) : Option (Statement × List Char) :=
  match cs with
  | '[' :: '[' :: rest => do
    let (path, ']' :: ']' :: rest) ← dottedKey? rest | none
    return (.header true path, rest)
  | '[' :: rest => do
    let (path, ']' :: rest) ← dottedKey? rest | none
    return (.header false path, rest)
  | cs => do
    let (keys, '=' :: rest) ← dottedKey? cs | none
    let (value, rest) ← value? (skipSpace rest)
    return (.assign keys.dropLast (keys.getLast?.getD "") value, rest)

/-- The lines of a document, of which there are at most as many as `fuel`. -/
def statementsFrom? : (fuel : Nat) → List Char → Option (List Statement)
  | _, [] => some []
  | 0, _ :: _ => none
  | fuel + 1, cs =>
    match lineEnd? cs with
    | some rest => statementsFrom? fuel rest
    | none => do
      let (statement, rest) ← statement? (skipSpace cs)
      let statements ← statementsFrom? fuel (← lineEnd? rest)
      return statement :: statements

/-- The top table of a document, which may begin with a byte order mark. -/
def parse? (text : String) : Option Value := do
  let cs :=
    match text.toList with
    | '\uFEFF' :: rest => rest
    | cs => cs
  Document.ofStatements? (← statementsFrom? cs.length cs)

end HandleLint.Toml
