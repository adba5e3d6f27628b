import HandleLint.Json.Value

/-!
# Reading JSON

Strict JSON, read one character at a time. The state of the reader is what it has still open (a
stack of frames), what may come next (its mode), and the word, number or string it is inside of.
There is no bound on how deep values nest.

* `Json.Scan`: inside a string, with its escapes;
* `Json.NumberPart`: inside a number;
* `Json.Reader`, `Json.Reader.step`: the state, and what one character does to it;
* `Json.parse?`: the value of a whole text.
-/

namespace HandleLint.Json

/-! ## Strings -/

/-- How far an escape has been read. -/
inductive Escape
  | none
  | begun
  | hex (digits value : Nat)

/-- A string part way through. -/
structure Scan where
  /-- The characters so far, the newest first. -/
  chars : List Char := []
  /-- A high surrogate that waits for its partner. -/
  high : Option Nat := Option.none
  /-- Whether every surrogate so far but that one has found its partner. -/
  paired : Bool := true
  escape : Escape := .none

namespace Scan

def push (s : Scan) (c : Char) : Scan :=
  { chars := c :: s.chars, high := none, paired := s.paired && s.high.isNone, escape := .none }

/-- A code unit written as an escape. -/
def pushUnit (s : Scan) (unit : Nat) : Scan :=
  if 0xD800 ≤ unit ∧ unit < 0xDC00 then
    { s with high := some unit, paired := s.paired && s.high.isNone, escape := .none }
  else if 0xDC00 ≤ unit ∧ unit < 0xE000 then
    match s.high with
    | some high =>
      { s with
        chars := Char.ofNat (0x10000 + (high - 0xD800) * 0x400 + (unit - 0xDC00)) :: s.chars
        high := none
        escape := .none }
    | none => { s with paired := false, escape := .none }
  else s.push (Char.ofNat unit)

def hexDigit? (c : Char) : Option Nat :=
  if '0' ≤ c ∧ c ≤ '9' then some (c.toNat - 48)
  else if 'a' ≤ c ∧ c ≤ 'f' then some (c.toNat - 87)
  else if 'A' ≤ c ∧ c ≤ 'F' then some (c.toNat - 55)
  else none

/-- The character that a backslash and another character stand for. -/
def escaped? : Char → Option Char
  | '"' => some '"'
  | '\\' => some '\\'
  | '/' => some '/'
  | 'b' => some '\x08'
  | 'f' => some '\x0c'
  | 'n' => some '\n'
  | 'r' => some '\r'
  | 't' => some '\t'
  | _ => none

/-- One more character, other than the quote that ends the string. -/
def step? (s : Scan) (c : Char) : Option Scan :=
  match s.escape with
  | .none =>
    if c = '\\' then some { s with escape := .begun }
    else if c.toNat < 0x20 then none
    else some (s.push c)
  | .begun =>
    if c = 'u' then some { s with escape := .hex 0 0 }
    else (escaped? c).map s.push
  | .hex digits value => do
    let digit ← hexDigit? c
    if digits = 3 then return s.pushUnit (value * 16 + digit)
    else return { s with escape := .hex (digits + 1) (value * 16 + digit) }

/-- Whether a quote would end the string here. -/
def atQuote (s : Scan) : Bool :=
  match s.escape with
  | .none => true
  | _ => false

/-- The text, if no surrogate was left alone. -/
def text? (s : Scan) : Option String :=
  if s.paired && s.high.isNone then some (String.ofList s.chars.reverse) else none

end Scan

/-! ## Numbers -/

/-- Which part of a number was read last. -/
inductive NumberPart
  | sign | zero | whole | point | fraction | mark | markSign | exponent
  deriving DecidableEq

namespace NumberPart

def isDigit (c : Char) : Bool :=
  '0' ≤ c && c ≤ '9'

/-- The part that begins a number. -/
def first? (c : Char) : Option NumberPart :=
  if c = '-' then some sign
  else if c = '0' then some zero
  else if isDigit c then some whole
  else none

/-- The part that a further character belongs to, if the number goes on with it. -/
def next? (part : NumberPart) (c : Char) : Option NumberPart :=
  match part with
  | sign => if c = '0' then some zero else if isDigit c then some whole else none
  | zero => if c = '.' then some point else if c = 'e' ∨ c = 'E' then some mark else none
  | whole =>
    if isDigit c then some whole
    else if c = '.' then some point
    else if c = 'e' ∨ c = 'E' then some mark
    else none
  | point => if isDigit c then some fraction else none
  | fraction =>
    if isDigit c then some fraction else if c = 'e' ∨ c = 'E' then some mark else none
  | mark =>
    if c = '+' ∨ c = '-' then some markSign else if isDigit c then some exponent else none
  | markSign | exponent => if isDigit c then some exponent else none

/-- The natural number that digits stand for. -/
def digitsValue (digits : List Char) : Nat :=
  digits.foldl (fun n c => n * 10 + (c.toNat - 48)) 0

/-- The value of a number that ends after this part, given its characters. -/
def value? (part : NumberPart) (literal : List Char) : Option Json :=
  match part with
  | zero =>
    some (if literal = ['0'] then .int 0 else .decimal (String.ofList literal))
  | whole =>
    match literal with
    | '-' :: digits => some (.int (-(digitsValue digits : Int)))
    | digits => some (.int (digitsValue digits))
  | fraction | exponent => some (.decimal (String.ofList literal))
  | sign | point | mark | markSign => none

end NumberPart

/-! ## Values -/

/-- A container around the value being read; what it holds so far, the newest first. -/
inductive Frame
  | item (before : List Json)
  | member (before : List (Option String × Json)) (name : Option String)

/-- What may come next. -/
inductive Mode
  /-- A value. -/
  | value
  /-- The first item of an array, or its end. -/
  | item
  /-- A field name; after `first` also the end of the object. -/
  | name (before : List (Option String × Json)) (first : Bool)
  /-- The colon after a field name. -/
  | colon (before : List (Option String × Json)) (name : Option String)
  /-- What follows a value that has ended. -/
  | after (value : Json)

/-- What the reader is inside of. -/
inductive Lexeme
  | none
  | word (rest : List Char) (value : Json)
  | number (part : NumberPart) (chars : List Char)
  | string (scan : Scan)

structure Reader where
  frames : List Frame := []
  mode : Mode := .value
  lexeme : Lexeme := .none

namespace Reader

def isSpace (c : Char) : Bool :=
  c = ' ' || c = '\t' || c = '\n' || c = '\r'

/-- A value has ended. -/
def finish (r : Reader) (value : Json) : Reader :=
  { r with mode := .after value, lexeme := .none }

/-- A string has ended: a field name where one may stand, else a value. -/
def finishString (r : Reader) (text : Option String) : Reader :=
  match r.mode with
  | .name before _ => { r with mode := .colon before text, lexeme := .none }
  | _ => r.finish (.string text)

/-- The first character of a value. -/
def beginValue? (r : Reader) (c : Char) : Option Reader :=
  match c with
  | '{' => some { r with mode := .name [] true }
  | '[' => some { r with frames := .item [] :: r.frames, mode := .item }
  | '"' => some { r with lexeme := .string {} }
  | 't' => some { r with lexeme := .word ['r', 'u', 'e'] (.bool true) }
  | 'f' => some { r with lexeme := .word ['a', 'l', 's', 'e'] (.bool false) }
  | 'n' => some { r with lexeme := .word ['u', 'l', 'l'] .null }
  | c => (NumberPart.first? c).map fun part => { r with lexeme := .number part [c] }

/-- A character outside of words, numbers and strings. -/
def stepBetween? (r : Reader) (c : Char) : Option Reader :=
  if isSpace c then some r
  else
    match r.mode with
    | .value => r.beginValue? c
    | .item =>
      if c = ']' then
        match r.frames with
        | .item before :: frames => some { r with frames, mode := .after (.array before.reverse) }
        | _ => none
      else r.beginValue? c
    | .name before first =>
      if c = '"' then some { r with lexeme := .string {} }
      else if c = '}' ∧ first then some { r with mode := .after (.object before.reverse) }
      else none
    | .colon before name =>
      if c = ':' then some { r with frames := .member before name :: r.frames, mode := .value }
      else none
    | .after value =>
      match r.frames with
      | [] => none
      | .item before :: frames =>
        if c = ',' then some { r with frames := .item (value :: before) :: frames, mode := .value }
        else if c = ']' then
          some { r with frames, mode := .after (.array (value :: before).reverse) }
        else none
      | .member before name :: frames =>
        if c = ',' then some { r with frames, mode := .name ((name, value) :: before) false }
        else if c = '}' then
          some { r with frames, mode := .after (.object ((name, value) :: before).reverse) }
        else none

/-- What one character does. A character that cannot go on with a number ends it. -/
def step (r : Reader) (c : Char) : Option Reader :=
  match r.lexeme with
  | .none => r.stepBetween? c
  | .word rest value =>
    match rest with
    | [] => none
    | [d] => if c = d then some (r.finish value) else none
    | d :: rest => if c = d then some { r with lexeme := .word rest value } else none
  | .number part chars =>
    match part.next? c with
    | some part => some { r with lexeme := .number part (c :: chars) }
    | none => do
      let value ← part.value? chars.reverse
      (r.finish value).stepBetween? c
  | .string scan =>
    if c = '"' ∧ scan.atQuote then some (r.finishString scan.text?)
    else (scan.step? c).map fun scan => { r with lexeme := .string scan }

/-- The value of a text that ends here. -/
def result? (r : Reader) : Option Json :=
  match r.frames, r.mode, r.lexeme with
  | [], .after value, .none => some value
  | [], .value, .number part chars => part.value? chars.reverse
  | _, _, _ => none

end Reader

/-- The value that a text stands for, if it is JSON from its first character to its last. -/
def parse? (text : String) : Option Json := do
  let r ← text.toList.foldlM Reader.step {}
  r.result?

end HandleLint.Json
