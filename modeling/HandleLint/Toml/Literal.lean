import HandleLint.Toml.Value

/-!
# TOML literals

Words that stand for a value: truth values, integers, floats, dates and times.

* `Toml.grouped?`: digits in groups that underscores part;
* `Toml.integer?`, `Toml.float?`, `Toml.datetime?`: the forms;
* `Toml.literal?`: the value of a word.
-/

namespace HandleLint.Toml

/-- The digits of a number in which single underscores may stand between digits. -/
def grouped? (isDigit : Char → Bool) : List Char → Option (List Char)
  | [] => none
  | [c] => if isDigit c then some [c] else none
  | c :: '_' :: rest => if isDigit c then (grouped? isDigit rest).map (c :: ·) else none
  | c :: rest => if isDigit c then (grouped? isDigit rest).map (c :: ·) else none

/-- The number that a digit stands for, a letter counting from ten. -/
def digitValue (c : Char) : Nat :=
  if c.isDigit then c.toNat - 48 else if c.isLower then c.toNat - 87 else c.toNat - 55

/-- The number that digits in a base stand for. -/
def digitsValue (base : Nat) (digits : List Char) : Nat :=
  digits.foldl (fun n c => n * base + digitValue c) 0

/-- A sign and what it stands before; `true` is minus. -/
def sign : List Char → Bool × List Char
  | '-' :: rest => (true, rest)
  | '+' :: rest => (false, rest)
  | cs => (false, cs)

/-- The digits of a whole number in base ten, which begins with a zero only if it is zero. -/
def whole? (cs : List Char) : Option (List Char) := do
  let digits ← grouped? Char.isDigit cs
  match digits with
  | '0' :: _ :: _ => none
  | _ => return digits

def isHexDigit (c : Char) : Bool :=
  c.isDigit || ('a' ≤ c && c ≤ 'f') || ('A' ≤ c && c ≤ 'F')

def isBelow (bound : Char) (c : Char) : Bool :=
  '0' ≤ c && c < bound

/-- An integer, which has to fit 64 bits with a sign. -/
def integer? (word : List Char) : Option Int := do
  let value : Int ←
    match word with
    | '0' :: 'x' :: rest => do pure (digitsValue 16 (← grouped? isHexDigit rest) : Int)
    | '0' :: 'o' :: rest => do pure (digitsValue 8 (← grouped? (isBelow '8') rest) : Int)
    | '0' :: 'b' :: rest => do pure (digitsValue 2 (← grouped? (isBelow '2') rest) : Int)
    | _ => do
      let (negative, rest) := sign word
      let n := digitsValue 10 (← whole? rest)
      pure (if negative then -(n : Int) else n)
  if Int64.minValue.toInt ≤ value ∧ value ≤ Int64.maxValue.toInt then return value else none

/-- Whether `digits · 10 ^ exponent` is too large for a double: it rounds to a number past all of
them from half a unit above the largest one. -/
def overflows (digits : List Char) (exponent : Int) : Bool :=
  let significant := digits.dropWhile (· = '0')
  let magnitude := significant.length + exponent
  if significant.isEmpty || magnitude < 300 then false
  else if 320 < magnitude then true
  else
    let n := digitsValue 10 significant
    let bound := Nat.pow 2 1024 - Nat.pow 2 970
    if 0 ≤ exponent then bound ≤ n * Nat.pow 10 exponent.toNat
    else bound * Nat.pow 10 (-exponent).toNat ≤ n

/-- Whether a word is a float: a whole number with a fraction, an exponent or both, or one of the
special ones. One that is too large is refused, unless it is negative. -/
def isFloat (word : List Char) : Bool :=
  let (negative, rest) := sign word
  rest = ['i', 'n', 'f'] || rest = ['n', 'a', 'n'] ||
    (let mantissa := rest.takeWhile fun c => c ≠ 'e' && c ≠ 'E'
    let power := rest.dropWhile fun c => c ≠ 'e' && c ≠ 'E'
    let digits? : Option (List Char × List Char) := do
      let fraction := mantissa.dropWhile (· ≠ '.')
      let before ← whole? (mantissa.takeWhile (· ≠ '.'))
      match fraction with
      | [] => if power.isEmpty then none else return (before, [])
      | _ :: after => return (before, ← grouped? Char.isDigit after)
    let exponent? : Option Int :=
      match power with
      | [] => some 0
      | _ :: power => do
        let (below, digits) := sign power
        let n := digitsValue 10 (← grouped? Char.isDigit digits)
        return if below then -(n : Int) else n
    match digits?, exponent? with
    | some (before, after), some exponent =>
      negative || !overflows (before ++ after) (exponent - after.length)
    | _, _ => false)

/-! ## Dates and times -/

/-- A number of a fixed count of digits, and what follows it. -/
def fixed? : Nat → List Char → Option (Nat × List Char)
  | width, cs =>
    let digits := cs.take width
    if digits.length = width ∧ digits.all Char.isDigit then
      some (digitsValue 10 digits, cs.drop width)
    else none

def daysIn (year month : Nat) : Nat :=
  if month = 2 then
    if year % 4 = 0 ∧ (year % 100 ≠ 0 ∨ year % 400 = 0) then 29 else 28
  else if month = 4 ∨ month = 6 ∨ month = 9 ∨ month = 11 then 30
  else 31

/-- A date, and what follows it. -/
def date? (cs : List Char) : Option (List Char) := do
  let (year, '-' :: rest) ← fixed? 4 cs | none
  let (month, '-' :: rest) ← fixed? 2 rest | none
  let (day, rest) ← fixed? 2 rest
  if 1 ≤ month ∧ month ≤ 12 ∧ 1 ≤ day ∧ day ≤ daysIn year month then return rest else none

/-- A time of day with its seconds, and what follows it. A minute may have a leap second. -/
def time? (cs : List Char) : Option (List Char) := do
  let (hour, ':' :: rest) ← fixed? 2 cs | none
  let (minute, ':' :: rest) ← fixed? 2 rest | none
  let (second, rest) ← fixed? 2 rest
  if 23 < hour ∨ 59 < minute ∨ 60 < second then none
  else
    match rest with
    | '.' :: digits =>
      if (digits.takeWhile Char.isDigit).isEmpty then none
      else return digits.dropWhile Char.isDigit
    | _ => return rest

/-- Whether a text is a distance from universal time. -/
def isOffset (cs : List Char) : Bool :=
  match cs with
  | ['Z'] | ['z'] => true
  | c :: rest =>
    (c = '+' || c = '-') &&
      (match fixed? 2 rest with
      | some (hour, ':' :: rest) =>
        (match fixed? 2 rest with
        | some (minute, []) => hour ≤ 23 && minute ≤ 59
        | _ => false)
      | _ => false)
  | [] => false

/-- Whether a text is a time of day that may follow a date. -/
def isTimeOfDate (cs : List Char) : Bool :=
  match time? cs with
  | some [] => true
  | some rest => isOffset rest
  | none => false

/-- Whether a word is a date, a time of day, or both. -/
def isDatetime (word : List Char) : Bool :=
  time? word = some [] ||
    (match date? word with
    | some [] => true
    | some (c :: rest) => (c = 'T' || c = 't') && isTimeOfDate rest
    | none => false)

/-- The value that a word stands for. -/
def literal? (word : List Char) : Option Value :=
  if word = ['t', 'r', 'u', 'e'] then some (.boolean true)
  else if word = ['f', 'a', 'l', 's', 'e'] then some (.boolean false)
  else if isDatetime word then some (.datetime (String.ofList word))
  else if isFloat word then some (.float (String.ofList word))
  else (integer? word).map .integer

end HandleLint.Toml
