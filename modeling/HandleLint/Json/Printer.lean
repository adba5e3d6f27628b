import HandleLint.Json.Value

/-!
# Printing JSON

Two layouts of the same text: `compact`, without a space, and `pretty`, with one item or field a
line and two spaces for each level. In strings only quotes, backslashes and the characters below
U+0020 are escaped.
-/

namespace HandleLint.Json

/-! ## Strings and numbers -/

def hexDigit (n : Nat) : Char :=
  if n < 10 then Char.ofNat (48 + n) else Char.ofNat (87 + n)

def escapeChar (c : Char) : List Char :=
  match c with
  | '"' => ['\\', '"']
  | '\\' => ['\\', '\\']
  | '\x08' => ['\\', 'b']
  | '\x0c' => ['\\', 'f']
  | '\n' => ['\\', 'n']
  | '\r' => ['\\', 'r']
  | '\t' => ['\\', 't']
  | c =>
    if c.toNat < 0x20 then
      ['\\', 'u', '0', '0', hexDigit (c.toNat / 16), hexDigit (c.toNat % 16)]
    else [c]

/-- A string between quotes; a lone surrogate for one that is no text. -/
def printString : Option String → List Char
  | some s => '"' :: s.toList.flatMap escapeChar ++ ['"']
  | none => ['"', '\\', 'u', 'd', '8', '0', '0', '"']

def printInt (n : Int) : List Char :=
  match n with
  | .ofNat n => Nat.toDigits 10 n
  | .negSucc n => '-' :: Nat.toDigits 10 (n + 1)

def printBool : Bool → List Char
  | true => ['t', 'r', 'u', 'e']
  | false => ['f', 'a', 'l', 's', 'e']

/-! ## Compact -/

mutual

def compactChars : Json → List Char
  | null => ['n', 'u', 'l', 'l']
  | bool b => printBool b
  | int n => printInt n
  | decimal literal => literal.toList
  | string text => printString text
  | array items => '[' :: compactItems items ++ [']']
  | object fields => '\x7b' :: compactFields fields ++ ['\x7d']

def compactItems : List Json → List Char
  | [] => []
  | [v] => compactChars v
  | v :: w :: rest => compactChars v ++ ',' :: compactItems (w :: rest)

def compactFields : List (Option String × Json) → List Char
  | [] => []
  | [(name, v)] => printString name ++ ':' :: compactChars v
  | (name, v) :: f :: rest =>
    printString name ++ ':' :: compactChars v ++ ',' :: compactFields (f :: rest)

end

def compact (j : Json) : String :=
  String.ofList j.compactChars

/-! ## Pretty -/

/-- A new line at a level. -/
def newline (level : Nat) : List Char :=
  '\n' :: List.replicate (2 * level) ' '

mutual

/-- The lines of a value that begins at a level. -/
def prettyChars (level : Nat) : Json → List Char
  | null => ['n', 'u', 'l', 'l']
  | bool b => printBool b
  | int n => printInt n
  | decimal literal => literal.toList
  | string text => printString text
  | array [] => ['[', ']']
  | array (v :: rest) => '[' :: prettyItems (level + 1) (v :: rest) ++ newline level ++ [']']
  | object [] => ['\x7b', '\x7d']
  | object (f :: rest) =>
    '\x7b' :: prettyFields (level + 1) (f :: rest) ++ newline level ++ ['\x7d']

def prettyItems (level : Nat) : List Json → List Char
  | [] => []
  | [v] => newline level ++ prettyChars level v
  | v :: w :: rest => newline level ++ prettyChars level v ++ ',' :: prettyItems level (w :: rest)

def prettyFields (level : Nat) : List (Option String × Json) → List Char
  | [] => []
  | [(name, v)] => newline level ++ printString name ++ ':' :: ' ' :: prettyChars level v
  | (name, v) :: f :: rest =>
    newline level ++ printString name ++ ':' :: ' ' :: prettyChars level v ++
      ',' :: prettyFields level (f :: rest)

end

def pretty (j : Json) : String :=
  String.ofList (j.prettyChars 0)

end HandleLint.Json
