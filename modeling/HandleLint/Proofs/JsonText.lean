import HandleLint.Json.Printer
import HandleLint.Json.Reader
import Mathlib.Data.List.Basic

/-!
# Reading what was printed

A printed value reads back as itself, in either layout. Both layouts are one printer with blanks at
different places (`Json.Layout`); the reader passes over blanks, and from a place where a value may
stand it gets to the end of the value (`Json.Reader.outcome?_chars`), whatever follows.

* `Json.Reader.outcome?`: what becomes of the rest of a text;
* `Json.Reader.outcome?_printString`, `Json.Reader.outcome?_printInt`: strings and numbers;
* `Json.Whole`: values whose numbers are integers;
* `Json.parse?_compact`, `Json.parse?_pretty`: reading a printed value.
-/

namespace HandleLint.Json

namespace Reader

/-- The value of a text, given the state in which its last characters are met. -/
def outcome? (r : Reader) (cs : List Char) : Option Json := do
  (← cs.foldlM step r).result?

variable {r r' : Reader} {c : Char} {cs : List Char}

theorem outcome?_cons (h : r.step c = some r') (cs : List Char) :
    r.outcome? (c :: cs) = r'.outcome? cs := by
  rw [outcome?, List.foldlM_cons, h]
  rfl

/-- Outside of words, numbers and strings, blanks are passed over. -/
theorem outcome?_blanks (hr : r.lexeme = .none) {blanks : List Char}
    (h : ∀ c ∈ blanks, isSpace c = true) (cs : List Char) :
    r.outcome? (blanks ++ cs) = r.outcome? cs := by
  induction blanks with
  | nil => rfl
  | cons c blanks ih =>
    obtain ⟨hc, hblanks⟩ := List.forall_mem_cons.1 h
    have hstep : r.step c = some r := by simp [step, hr, stepBetween?, hc]
    rw [List.cons_append, outcome?_cons hstep, ih hblanks]

/-! ## Strings -/

theorem hexDigit?_hexDigit : ∀ n < 16, Scan.hexDigit? (hexDigit n) = some n := by
  decide

/-- A code unit below the surrogates stands for a character. -/
theorem pushUnit_toNat (before : List Char) (h : c.toNat < 0x20) :
    Scan.pushUnit { chars := before } c.toNat = { chars := c :: before } := by
  have hhigh : ¬ (0xD800 ≤ c.toNat ∧ c.toNat < 0xDC00) := by omega
  have hlow : ¬ (0xDC00 ≤ c.toNat ∧ c.toNat < 0xE000) := by omega
  rw [Scan.pushUnit, if_neg hhigh, if_neg hlow, Char.ofNat_toNat]
  rfl

theorem step_string {scan scan' : Scan} (hquote : ¬ (c = '"' ∧ scan.atQuote = true))
    (h : scan.step? c = some scan') :
    step { r with lexeme := .string scan } c = some { r with lexeme := .string scan' } := by
  simp only [step, if_neg hquote, h, Option.map_some]

/-- A character, escaped or not, is read as itself. -/
theorem outcome?_escapeChar (r : Reader) (before : List Char) (c : Char) (cs : List Char) :
    outcome? { r with lexeme := .string { chars := before } } (escapeChar c ++ cs) =
      outcome? { r with lexeme := .string { chars := c :: before } } cs := by
  unfold escapeChar
  split
  case h_8 hquote hbackslash _ _ _ _ _ =>
    split
    · -- Two hexadecimal digits hold a character below U+0020.
      have hhigh := hexDigit?_hexDigit (c.toNat / 16) (by omega)
      have hlow := hexDigit?_hexDigit (c.toNat % 16) (by omega)
      have hunit : c.toNat / 16 * 16 + c.toNat % 16 = c.toNat := Nat.div_add_mod' _ _
      show outcome? { r with lexeme := .string { chars := before, escape := .hex 2 0 } }
        (hexDigit (c.toNat / 16) :: hexDigit (c.toNat % 16) :: cs) = _
      rw [outcome?_cons (step_string (by simp [Scan.atQuote])
          (by simp only [Scan.step?, hhigh]; rfl)),
        outcome?_cons (step_string (by simp [Scan.atQuote])
          (by simp only [Scan.step?, hlow]; rfl))]
      simp only [Nat.zero_mul, Nat.zero_add, hunit]
      rw [← pushUnit_toNat before ‹_›]
      rfl
    · refine outcome?_cons (step_string (fun h => hquote h.1) ?_) cs
      simp only [Scan.step?, if_neg hbackslash, if_neg ‹¬ _›]
      rfl
  all_goals rfl

theorem outcome?_escaped (r : Reader) (before text : List Char) (cs : List Char) :
    outcome? { r with lexeme := .string { chars := before } } (text.flatMap escapeChar ++ cs) =
      outcome? { r with lexeme := .string { chars := text.reverse ++ before } } cs := by
  induction text generalizing before with
  | nil => rfl
  | cons c text ih =>
    rw [List.flatMap_cons, List.append_assoc, outcome?_escapeChar, ih, List.reverse_cons,
      List.append_assoc, List.singleton_append]

/-- A printed string, after its first quote. -/
theorem outcome?_string (r : Reader) (text : Option String) (cs : List Char) :
    outcome? { r with lexeme := .string {} } ((printString text).tail ++ cs) =
      outcome? (finishString { r with lexeme := .string {} } text) cs := by
  cases text with
  | none => rfl
  | some s =>
    have hend : step { r with lexeme := .string { chars := s.toList.reverse ++ [] } } '"' =
        some (finishString { r with lexeme := .string {} } (some s)) := by
      simp [step, Scan.atQuote, Scan.text?, finishString, finish]
    show outcome? _ ((s.toList.flatMap escapeChar ++ ['"']) ++ cs) = _
    rw [List.append_assoc, outcome?_escaped, List.singleton_append, outcome?_cons hend]

/-! ## Numbers -/

/-- The reader is where a value may stand. -/
structure Expects (r : Reader) : Prop where
  lexeme : r.lexeme = .none
  mode : r.mode = .value ∨ r.mode = .item ∧ r.frames ≠ []

/-- Characters that may follow a value. -/
def closers : List Char :=
  [',', ']', '}', ' ', '\t', '\n', '\r']

/-- What may follow a value: the end of the text, or a character that no number goes on with. -/
def Closing (cs : List Char) : Prop :=
  ∀ c ∈ cs.head?, c ∈ closers

theorem closing_nil : Closing [] := by
  rintro _ ⟨⟩

theorem closing_cons (h : c ∈ closers) (cs : List Char) : Closing (c :: cs) := by
  rintro _ ⟨⟩
  exact h

theorem Expects.step_eq (h : r.Expects) (hspace : isSpace c = false) (hend : c ≠ ']') :
    r.step c = r.beginValue? c := by
  rcases h.mode with hm | ⟨hm, -⟩ <;> simp [step, h.lexeme, stepBetween?, hspace, hm, hend]

theorem Expects.step_number (h : r.Expects) {part : NumberPart}
    (hc : NumberPart.first? c = some part) :
    r.step c = some { r with lexeme := .number part [c] } := by
  have hne : ∀ d, NumberPart.first? d = none → c ≠ d := by
    rintro d hd rfl
    cases hd.symm.trans hc
  have hspace : isSpace c = false := by
    simp [isSpace, hne ' ' (by decide), hne '\t' (by decide), hne '\n' (by decide),
      hne '\r' (by decide)]
  rw [h.step_eq hspace (hne ']' (by decide))]
  unfold beginValue?
  -- Of the characters that a value begins with, all others begin no number.
  split
  case h_7 =>
    rw [hc]
    rfl
  all_goals exact absurd rfl (hne _ (by decide))

/-- A number ends where what follows cannot belong to it. -/
theorem outcome?_number_end (h : r.Expects) {part : NumberPart}
    (hpart : part = .zero ∨ part = .whole) {chars : List Char} {value : Json}
    (hvalue : part.value? chars.reverse = some value) (hcs : Closing cs) :
    outcome? { r with lexeme := .number part chars } cs = (r.finish value).outcome? cs := by
  cases cs with
  | nil =>
    -- At the end of the text only a reader outside of all containers has a result.
    show result? _ = result? _
    rcases h.mode with hm | ⟨hm, hframes⟩
    · cases hf : r.frames <;> simp [result?, finish, hm, hf, hvalue]
    · obtain ⟨f, fs, hf⟩ := List.exists_cons_of_ne_nil hframes
      simp [result?, finish, hf]
  | cons c cs =>
    have hclosers : closers.all (fun d => (part.next? d).isNone) = true := by
      rcases hpart with rfl | rfl <;> decide
    have hnext : ∀ d ∈ closers, part.next? d = none := fun d hd =>
      Option.isNone_iff_eq_none.1 (List.all_eq_true.1 hclosers d hd)
    -- The number is finished before `c`, which is then met as after any other value.
    have hstep : step { r with lexeme := .number part chars } c = (r.finish value).step c := by
      simp only [step, hnext c (hcs c rfl), hvalue]
      rfl
    simp only [outcome?, List.foldlM_cons, hstep]

theorem outcome?_digits (r : Reader) (before : List Char) {digits : List Char}
    (h : ∀ c ∈ digits, c.isDigit = true) (cs : List Char) :
    outcome? { r with lexeme := .number .whole before } (digits ++ cs) =
      outcome? { r with lexeme := .number .whole (digits.reverse ++ before) } cs := by
  induction digits generalizing before with
  | nil => rfl
  | cons c digits ih =>
    obtain ⟨hc, hdigits⟩ := List.forall_mem_cons.1 h
    have hstep : step { r with lexeme := .number .whole before } c =
        some { r with lexeme := .number .whole (c :: before) } := by
      have hnext : NumberPart.whole.next? c = some .whole := if_pos hc
      simp only [step, hnext]
    rw [List.cons_append, outcome?_cons hstep, ih _ hdigits, List.reverse_cons, List.append_assoc,
      List.singleton_append]

/-- A positive number begins with a digit other than zero. -/
theorem head?_toDigits_ne_zero {n : Nat} (h : 0 < n) : (Nat.toDigits 10 n).head? ≠ some '0' := by
  induction n using Nat.strongRecOn with
  | _ n ih =>
    by_cases hn : n < 10
    · have hdigit : ∀ m < 10, 0 < m → [m.digitChar].head? ≠ some '0' := by decide
      rw [Nat.toDigits_of_lt_base hn]
      exact hdigit n hn h
    · rw [Nat.toDigits_of_base_le (by omega) (by omega),
        List.head?_append_of_ne_nil _ Nat.toDigits_ne_nil]
      exact ih (n / 10) (by omega) (by omega)

theorem digitsValue_toDigits (n : Nat) : NumberPart.digitsValue (Nat.toDigits 10 n) = n := by
  have h := Nat.ofDigitChars_ten_toDigits (n := n)
  simp only [Nat.ofDigitChars_eq_foldl, Nat.mul_comm] at h
  exact h

theorem toDigits_cases {n : Nat} (h : 0 < n) :
    ∃ c digits, Nat.toDigits 10 n = c :: digits ∧ c ≠ '0' ∧ c.isDigit = true ∧
      ∀ d ∈ digits, d.isDigit = true := by
  have hdigits : ∀ c ∈ Nat.toDigits 10 n, c.isDigit = true :=
    fun c hc => Nat.isDigit_of_mem_toDigits (by decide) (by decide) hc
  have hhead := head?_toDigits_ne_zero h
  obtain ⟨c, digits, heq⟩ := List.exists_cons_of_ne_nil (Nat.toDigits_ne_nil (n := n) (b := 10))
  rw [heq, List.forall_mem_cons] at hdigits
  rw [heq] at hhead
  exact ⟨c, digits, heq, fun hc => hhead (congrArg some hc), hdigits.1, hdigits.2⟩

theorem value?_whole (digits : List Char) (h : digits.head? ≠ some '-') :
    NumberPart.value? .whole digits = some (.int (NumberPart.digitsValue digits)) := by
  unfold NumberPart.value?
  simp only
  split
  · exact absurd rfl h
  · rfl

/-- A printed integer is read as itself. -/
theorem outcome?_printInt (h : r.Expects) (n : Int) (hcs : Closing cs) :
    r.outcome? (printInt n ++ cs) = (r.finish (.int n)).outcome? cs := by
  cases n with
  | ofNat n =>
    cases n with
    | zero =>
      -- A zero in front stands alone, so it is a part of numbers in its own right.
      have hfirst : NumberPart.first? '0' = some .zero := rfl
      rw [show printInt (.ofNat 0) = ['0'] from Nat.toDigits_zero 10, List.singleton_append,
        outcome?_cons (h.step_number hfirst)]
      exact outcome?_number_end h (.inl rfl) rfl hcs
    | succ n =>
      obtain ⟨c, digits, heq, hzero, hc, hdigits⟩ := toDigits_cases (Nat.succ_pos n)
      have hminus : c ≠ '-' := by rintro rfl; cases hc
      have hfirst : NumberPart.first? c = some .whole := by
        rw [NumberPart.first?, if_neg hminus, if_neg hzero]
        exact if_pos hc
      have hvalue := value?_whole (c :: digits) (by simpa using hminus)
      rw [← heq, digitsValue_toDigits] at hvalue
      rw [show printInt (.ofNat (n + 1)) = c :: digits from heq, List.cons_append,
        outcome?_cons (h.step_number hfirst), outcome?_digits _ _ hdigits]
      exact outcome?_number_end h (.inr rfl) (by simpa [heq] using hvalue) hcs
  | negSucc n =>
    obtain ⟨c, digits, heq, hzero, hc, hdigits⟩ := toDigits_cases (Nat.succ_pos n)
    have hfirst : NumberPart.first? '-' = some .sign := rfl
    have hstep : step { r with lexeme := .number .sign ['-'] } c =
        some { r with lexeme := .number .whole [c, '-'] } := by
      have hnext : NumberPart.sign.next? c = some .whole := by
        rw [NumberPart.next?, if_neg hzero]
        exact if_pos hc
      simp only [step, hnext]
    have hvalue : NumberPart.value? .whole ('-' :: (c :: digits)) = some (.int (.negSucc n)) := by
      rw [← heq]
      show some (Json.int (-(NumberPart.digitsValue (Nat.toDigits 10 (n + 1)) : Int))) = _
      rw [digitsValue_toDigits]
      rfl
    rw [show printInt (.negSucc n) = '-' :: c :: digits from congrArg _ heq, List.cons_append,
      List.cons_append, outcome?_cons (h.step_number hfirst), outcome?_cons hstep,
      outcome?_digits _ _ hdigits]
    exact outcome?_number_end h (.inr rfl) (by simpa using hvalue) hcs

end Reader

/-! ## Layouts -/

/-- Where a printer puts blanks. -/
structure Layout where
  /-- What stands before an item, a field or the end of a container at a level. -/
  line : Nat → List Char
  /-- What follows the colon after a field name. -/
  gap : List Char

namespace Layout

/-- A layout adds nothing but blanks. -/
structure Blank (l : Layout) : Prop where
  line : ∀ level, ∀ c ∈ l.line level, Reader.isSpace c = true
  gap : ∀ c ∈ l.gap, Reader.isSpace c = true

def compact : Layout where
  line _ := []
  gap := []

def pretty : Layout where
  line := newline
  gap := [' ']

theorem blank_compact : compact.Blank where
  line := by simp [compact]
  gap := by simp [compact]

theorem blank_pretty : pretty.Blank where
  line := by
    intro level c hc
    rcases List.mem_cons.1 hc with rfl | hc
    · rfl
    · rw [List.eq_of_mem_replicate hc]
      rfl
  gap := by
    intro c hc
    rw [List.mem_singleton.1 hc]
    rfl

mutual

/-- The text of a value that begins at a level. -/
def chars (l : Layout) (level : Nat) : Json → List Char
  | .null => ['n', 'u', 'l', 'l']
  | .bool b => printBool b
  | .int n => printInt n
  | .decimal literal => literal.toList
  | .string text => printString text
  | .array [] => ['[', ']']
  | .array (v :: rest) => '[' :: l.items (level + 1) (v :: rest) ++ l.line level ++ [']']
  | .object [] => ['\x7b', '\x7d']
  | .object (f :: rest) => '\x7b' :: l.fields (level + 1) (f :: rest) ++ l.line level ++ ['\x7d']

def items (l : Layout) (level : Nat) : List Json → List Char
  | [] => []
  | [v] => l.line level ++ l.chars level v
  | v :: w :: rest => l.line level ++ l.chars level v ++ ',' :: l.items level (w :: rest)

def fields (l : Layout) (level : Nat) : List (Option String × Json) → List Char
  | [] => []
  | [(name, v)] => l.line level ++ printString name ++ ':' :: l.gap ++ l.chars level v
  | (name, v) :: f :: rest =>
    l.line level ++ printString name ++ ':' :: l.gap ++ l.chars level v ++
      ',' :: l.fields level (f :: rest)

end

mutual

theorem chars_compact (level : Nat) : ∀ j, compact.chars level j = j.compactChars
  | .null | .bool _ | .int _ | .decimal _ | .string _ => rfl
  | .array [] => rfl
  | .array (v :: rest) => by
    rw [chars, items_compact (level + 1) (v :: rest), compactChars]
    simp [compact]
  | .object [] => rfl
  | .object (f :: rest) => by
    rw [chars, fields_compact (level + 1) (f :: rest), compactChars]
    simp [compact]

theorem items_compact (level : Nat) : ∀ vs, compact.items level vs = compactItems vs
  | [] => rfl
  | [v] => chars_compact level v
  | v :: w :: rest => by
    rw [items, chars_compact level v, items_compact level (w :: rest), compactItems]
    rfl

theorem fields_compact (level : Nat) : ∀ fs, compact.fields level fs = compactFields fs
  | [] => rfl
  | [(name, v)] => by
    rw [fields, chars_compact level v, compactFields]
    simp [compact]
  | (name, v) :: f :: rest => by
    rw [fields, chars_compact level v, fields_compact level (f :: rest), compactFields]
    simp [compact]

end

mutual

theorem chars_pretty (level : Nat) : ∀ j, pretty.chars level j = j.prettyChars level
  | .null | .bool _ | .int _ | .decimal _ | .string _ => rfl
  | .array [] => rfl
  | .array (v :: rest) => by rw [chars, items_pretty (level + 1) (v :: rest), prettyChars]; rfl
  | .object [] => rfl
  | .object (f :: rest) => by rw [chars, fields_pretty (level + 1) (f :: rest), prettyChars]; rfl

theorem items_pretty (level : Nat) : ∀ vs, pretty.items level vs = prettyItems level vs
  | [] => rfl
  | [v] => by rw [items, chars_pretty level v, prettyItems]; rfl
  | v :: w :: rest => by
    rw [items, chars_pretty level v, items_pretty level (w :: rest), prettyItems]
    rfl

theorem fields_pretty (level : Nat) : ∀ fs, pretty.fields level fs = prettyFields level fs
  | [] => rfl
  | [(name, v)] => by
    rw [fields, chars_pretty level v, prettyFields]
    simp [pretty]
  | (name, v) :: f :: rest => by
    rw [fields, chars_pretty level v, fields_pretty level (f :: rest), prettyFields]
    simp [pretty]

end

end Layout

/-! ## Values -/

mutual

/-- Every number in a value is an integer. -/
def Whole : Json → Prop
  | .decimal _ => False
  | .array vs => WholeItems vs
  | .object fs => WholeFields fs
  | .null | .bool _ | .int _ | .string _ => True

def WholeItems : List Json → Prop
  | [] => True
  | v :: rest => v.Whole ∧ WholeItems rest

def WholeFields : List (Option String × Json) → Prop
  | [] => True
  | (_, v) :: rest => v.Whole ∧ WholeFields rest

end

namespace Reader

variable {r r' : Reader} {c : Char} {cs : List Char} {l : Layout}

theorem closing_line (hl : l.Blank) (level : Nat) (hc : Closing (c :: cs)) :
    Closing (l.line level ++ c :: cs) := by
  have hline := hl.line level
  cases heq : l.line level with
  | nil => exact hc
  | cons d line =>
    have hd : isSpace d = true := hline d (by simp [heq])
    refine closing_cons ?_ _
    simp only [isSpace, Bool.or_eq_true, decide_eq_true_eq] at hd
    rcases hd with ((rfl | rfl) | rfl) | rfl <;> decide

theorem outcome?_line (hr : r.lexeme = .none) (hl : l.Blank) (level : Nat) (cs : List Char) :
    r.outcome? (l.line level ++ cs) = r.outcome? cs :=
  outcome?_blanks hr (hl.line level) cs

theorem outcome?_printString (h : r.Expects) (text : Option String) (cs : List Char) :
    r.outcome? (printString text ++ cs) = (r.finish (.string text)).outcome? cs := by
  have hbegin : r.step '"' = some { r with lexeme := .string {} } :=
    h.step_eq rfl (by decide)
  have hend : finishString { r with lexeme := .string {} } text = r.finish (.string text) := by
    rcases h.mode with hm | ⟨hm, -⟩ <;> simp [finishString, finish, hm]
  have hchars : printString text = '"' :: (printString text).tail := by cases text <;> rfl
  rw [hchars, List.cons_append, outcome?_cons hbegin, outcome?_string, hend]

theorem Expects.step_array (h : r.Expects) :
    r.step '[' = some { frames := .item [] :: r.frames, mode := .item } := by
  simp [h.step_eq, isSpace, beginValue?, h.lexeme]

theorem Expects.step_object (h : r.Expects) :
    r.step '{' = some { frames := r.frames, mode := .name [] true } := by
  simp [h.step_eq, isSpace, beginValue?, h.lexeme]

/-- The name of a field, and the colon after it. -/
theorem outcome?_name (hl : l.Blank) (level : Nat) {before : List (Option String × Json)}
    {first : Bool} (hr : r.lexeme = .none) (hm : r.mode = .name before first)
    (name : Option String) (cs : List Char) :
    r.outcome? (l.line level ++ (printString name ++ (':' :: (l.gap ++ cs)))) =
      outcome? { frames := .member before name :: r.frames } cs := by
  have hbegin : r.step '"' = some { r with lexeme := .string {} } := by
    simp [step, hr, stepBetween?, hm, isSpace]
  have hend : finishString { r with lexeme := .string {} } name =
      { r with mode := .colon before name, lexeme := .none } := by
    simp [finishString, hm]
  have hcolon : step { r with mode := .colon before name, lexeme := .none } ':' =
      some { frames := .member before name :: r.frames } := rfl
  have hchars : printString name = '"' :: (printString name).tail := by cases name <;> rfl
  rw [outcome?_line hr hl, hchars, List.cons_append, outcome?_cons hbegin, outcome?_string, hend,
    outcome?_cons hcolon, outcome?_blanks rfl hl.gap]

mutual

/-- From where a value may stand, a printed value leads to its end. -/
theorem outcome?_chars (hl : l.Blank) (level : Nat) : ∀ (j : Json), j.Whole →
    ∀ {r : Reader}, r.Expects → ∀ {cs : List Char}, Closing cs →
      r.outcome? (l.chars level j ++ cs) = (r.finish j).outcome? cs
  | .null, _, r, hr, cs, _ => outcome?_cons (hr.step_eq (c := 'n') rfl (by decide)) _
  | .bool true, _, r, hr, cs, _ => outcome?_cons (hr.step_eq (c := 't') rfl (by decide)) _
  | .bool false, _, r, hr, cs, _ => outcome?_cons (hr.step_eq (c := 'f') rfl (by decide)) _
  | .int n, _, r, hr, cs, hcs => outcome?_printInt hr n hcs
  | .string text, _, r, hr, cs, _ => outcome?_printString hr text cs
  | .array [], _, r, hr, cs, _ => outcome?_cons hr.step_array (']' :: cs)
  | .array (v :: rest), hj, r, hr, cs, _ => by
    rw [Layout.chars]
    simp only [List.cons_append, List.append_assoc]
    rw [outcome?_cons hr.step_array]
    exact outcome?_items hl (level + 1) (v :: rest) (List.cons_ne_nil v rest) hj
      (r := { frames := .item [] :: r.frames, mode := .item })
      ⟨rfl, .inr ⟨rfl, List.cons_ne_nil _ _⟩⟩ rfl level
  | .object [], _, r, hr, cs, _ => outcome?_cons hr.step_object ('}' :: cs)
  | .object (f :: rest), hj, r, hr, cs, _ => by
    rw [Layout.chars]
    simp only [List.cons_append, List.append_assoc]
    rw [outcome?_cons hr.step_object]
    exact outcome?_fields hl (level + 1) (f :: rest) (List.cons_ne_nil f rest) hj
      (r := { frames := r.frames, mode := .name [] true }) rfl rfl level

/-- The items of an array lead to its end, after the items before them. -/
theorem outcome?_items (hl : l.Blank) (level : Nat) : ∀ (vs : List Json), vs ≠ [] →
    WholeItems vs → ∀ {r : Reader} {before : List Json} {frames : List Frame}, r.Expects →
      r.frames = .item before :: frames → ∀ (outer : Nat) {cs : List Char},
      r.outcome? (l.items level vs ++ (l.line outer ++ (']' :: cs))) =
        outcome? { frames, mode := .after (.array (before.reverse ++ vs)) } cs
  | [v], _, hv, r, before, frames, hr, hf, outer, cs => by
    have hend : (r.finish v).step ']' =
        some { frames, mode := .after (.array (v :: before).reverse) } := by
      simp [step, finish, stepBetween?, hf, isSpace]
    rw [Layout.items, List.append_assoc, outcome?_line hr.lexeme hl,
      outcome?_chars hl level v hv.1 hr (closing_line hl outer (closing_cons (by decide) cs)),
      outcome?_line rfl hl, outcome?_cons hend, List.reverse_cons]
  | v :: w :: rest, _, hv, r, before, frames, hr, hf, outer, cs => by
    have hnext : (r.finish v).step ',' = some { frames := .item (v :: before) :: frames } := by
      simp [step, finish, stepBetween?, hf, isSpace]
    rw [Layout.items]
    simp only [List.append_assoc, List.cons_append]
    rw [outcome?_line hr.lexeme hl,
      outcome?_chars hl level v hv.1 hr (closing_cons (by decide) _), outcome?_cons hnext,
      outcome?_items hl level (w :: rest) (List.cons_ne_nil w rest) hv.2 ⟨rfl, .inl rfl⟩ rfl,
      List.reverse_cons, List.append_assoc, List.singleton_append]

/-- The fields of an object lead to its end, after the fields before them. -/
theorem outcome?_fields (hl : l.Blank) (level : Nat) : ∀ (fs : List (Option String × Json)),
    fs ≠ [] → WholeFields fs →
      ∀ {r : Reader} {before : List (Option String × Json)} {first : Bool}, r.lexeme = .none →
      r.mode = .name before first → ∀ (outer : Nat) {cs : List Char},
      r.outcome? (l.fields level fs ++ (l.line outer ++ ('}' :: cs))) =
        outcome? { frames := r.frames, mode := .after (.object (before.reverse ++ fs)) } cs
  | [(name, v)], _, hv, r, before, first, hr, hm, outer, cs => by
    have hend : (finish { frames := .member before name :: r.frames } v).step '}' =
        some { frames := r.frames, mode := .after (.object ((name, v) :: before).reverse) } := rfl
    rw [Layout.fields]
    simp only [List.append_assoc, List.cons_append]
    rw [outcome?_name hl level hr hm,
      outcome?_chars hl level v hv.1 ⟨rfl, .inl rfl⟩
        (closing_line hl outer (closing_cons (by decide) cs)),
      outcome?_line rfl hl, outcome?_cons hend, List.reverse_cons]
  | (name, v) :: f :: rest, _, hv, r, before, first, hr, hm, outer, cs => by
    have hnext : (finish { frames := .member before name :: r.frames } v).step ',' =
        some { frames := r.frames, mode := .name ((name, v) :: before) false } := rfl
    rw [Layout.fields]
    simp only [List.append_assoc, List.cons_append]
    rw [outcome?_name hl level hr hm,
      outcome?_chars hl level v hv.1 ⟨rfl, .inl rfl⟩ (closing_cons (by decide) _),
      outcome?_cons hnext,
      outcome?_fields hl level (f :: rest) (List.cons_ne_nil f rest) hv.2 rfl rfl,
      List.reverse_cons, List.append_assoc, List.singleton_append]

end

end Reader

theorem parse?_chars {l : Layout} (hl : l.Blank) {j : Json} (h : j.Whole) :
    parse? (String.ofList (l.chars 0 j)) = some j := by
  have hread := Reader.outcome?_chars hl 0 j h (r := {}) ⟨rfl, .inl rfl⟩ Reader.closing_nil
  rw [List.append_nil] at hread
  rw [parse?, String.toList_ofList]
  exact hread

/-- A value reads back from its compact text. -/
theorem parse?_compact {j : Json} (h : j.Whole) : parse? j.compact = some j := by
  rw [compact, ← Layout.chars_compact 0]
  exact parse?_chars Layout.blank_compact h

/-- A value reads back from its text over several lines. -/
theorem parse?_pretty {j : Json} (h : j.Whole) : parse? j.pretty = some j := by
  rw [pretty, ← Layout.chars_pretty 0]
  exact parse?_chars Layout.blank_pretty h

end HandleLint.Json
