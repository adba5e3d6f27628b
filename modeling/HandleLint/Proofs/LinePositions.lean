import HandleLint.Proofs.LineNumbers

/-!
# Positions of a text, byte by byte

The line of an offset is counted in the bytes of the text, and the column from the start of the
line:

* `Text.lineEndsBefore`: the line ends among the first bytes of a text;
* `Text.lineStart`: the size of the lines before a line;
* `LineIndex.position?_ofText`: where the checked computation of a position gives a result;
* `LineIndex.position_lineText_ofText`: below the largest offset, positions count lines and columns,
  no two offsets lie at one position, and the lines of a text are the pieces between its ends.
-/

namespace HandleLint

namespace Text

/-! ## Bytes -/

/-- The bytes of characters in UTF-8. -/
def bytes (cs : List Char) : List UInt8 :=
  cs.flatMap String.utf8EncodeChar

theorem bytes_append (cs ds : List Char) : bytes (cs ++ ds) = bytes cs ++ bytes ds :=
  List.flatMap_append

theorem length_bytes (cs : List Char) : (bytes cs).length = byteSize cs := by
  induction cs with
  | nil => rfl
  | cons c cs ih =>
    rw [bytes, List.flatMap_cons, List.length_append, String.length_utf8EncodeChar, byteSize_cons]
    exact congrArg _ ih

theorem toList_toUTF8 (text : String) : text.toUTF8.data.toList = bytes text.toList := by
  have htext : text = String.ofList text.toList := String.ofList_toList.symm
  rw [htext, String.toUTF8_eq_toByteArray, String.toByteArray_ofList, List.utf8Encode,
    List.toList_data_toByteArray, String.toList_ofList, bytes]

/-- Beyond ASCII, every byte of a character has its high bit set. -/
theorem le_toNat_of_mem_utf8EncodeChar {c : Char} (hc : ¬ c.val.toNat ≤ 127) {b : UInt8}
    (h : b ∈ String.utf8EncodeChar c) : 128 ≤ b.toNat := by
  have hbyte {n : Nat} (hlow : 128 ≤ n) (hn : n < 256) : 128 ≤ (UInt8.ofNat n).toNat := by
    rwa [UInt8.toNat_ofNat_of_lt' hn]
  simp only [String.utf8EncodeChar, if_neg hc] at h
  split at h
  · simp only [List.mem_cons, List.not_mem_nil, or_false] at h
    obtain rfl | rfl := h <;> exact hbyte (by omega) (by omega)
  · split at h
    · simp only [List.mem_cons, List.not_mem_nil, or_false] at h
      obtain rfl | rfl | rfl := h <;> exact hbyte (by omega) (by omega)
    · simp only [List.mem_cons, List.not_mem_nil, or_false] at h
      obtain rfl | rfl | rfl | rfl := h <;> exact hbyte (by omega) (by omega)

/-- The byte of a line end is part of no other character. -/
theorem eq_of_mem_utf8EncodeChar {c : Char} (h : '\n'.toUInt8 ∈ String.utf8EncodeChar c) :
    c = '\n' := by
  have hend : '\n'.toUInt8.toNat = 10 := rfl
  by_cases hc : c.val.toNat ≤ 127
  · simp only [String.utf8EncodeChar, if_pos hc, List.mem_singleton] at h
    have hnat := congrArg UInt8.toNat h
    rw [UInt8.toNat_ofNat_of_lt' (Nat.lt_of_le_of_lt hc (by decide))] at hnat
    exact Char.ext (UInt32.toNat_inj.1 hnat.symm)
  · have hle := le_toNat_of_mem_utf8EncodeChar hc h
    omega

theorem not_mem_bytes {line : List Char} (h : '\n' ∉ line) : '\n'.toUInt8 ∉ bytes line := by
  intro hmem
  obtain ⟨c, hc, hbyte⟩ := List.mem_flatMap.1 hmem
  exact h (eq_of_mem_utf8EncodeChar hbyte ▸ hc)

/-! ## Line ends and line starts -/

/-- The number of line ends among the first bytes of a text. -/
def lineEndsBefore (text : String) (offset : Nat) : Nat :=
  (text.toUTF8.data.toList.take offset).count '\n'.toUInt8

/-- The size in bytes of the lines before a line, counted from 0, each with its end. -/
def lineStart (text : String) (i : Nat) : Nat :=
  byteSize (((lines text).take i).flatMap (· ++ ['\n']))

end Text

instance : LT Position where
  lt p q := p.line < q.line ∨ p.line = q.line ∧ p.column < q.column

theorem Position.lt_of_le_of_ne {p q : Position} (hle : p ≤ q) (hne : p ≠ q) : p < q := by
  obtain hlt | ⟨hline, hcolumn⟩ := hle
  · exact .inl hlt
  · refine .inr ⟨hline, UInt64.lt_of_le_of_ne hcolumn fun heq => hne ?_⟩
    cases p
    cases q
    cases hline
    cases heq
    rfl

namespace LineIndex

open Text

/-- As many lines begin after the first up to an offset as there are line ends before it. -/
theorem length_filter_startsAfter (start distance : Nat) (cs : List Char) :
    ((startsAfter start cs).filter (· ≤ start + distance)).length =
      ((bytes cs).take distance).count '\n'.toUInt8 := by
  induction cs using lines_induction generalizing start distance with
  | last line h =>
    rw [startsAfter_last h, List.filter_nil, List.length_nil]
    exact (List.count_eq_zero.2 fun hmem => not_mem_bytes h (List.mem_of_mem_take hmem)).symm
  | line line rest h ih =>
    have hbytes : bytes (line ++ '\n' :: rest) = bytes line ++ '\n'.toUInt8 :: bytes rest :=
      bytes_append line ('\n' :: rest)
    have hnone (n : Nat) : ((bytes line).take n).count '\n'.toUInt8 = 0 :=
      List.count_eq_zero.2 fun hmem => not_mem_bytes h (List.mem_of_mem_take hmem)
    rw [startsAfter_line h, hbytes, List.take_append, List.count_append, hnone, Nat.zero_add,
      length_bytes]
    cases hdistance : distance - byteSize line with
    | zero =>
      -- The offset lies on the first line.
      have hlate : ∀ next ∈ (start + byteSize line + 1) ::
          startsAfter (start + byteSize line + 1) rest, ¬ next ≤ start + distance := by
        intro next hnext
        obtain rfl | hnext := List.mem_cons.1 hnext
        · omega
        · have := lt_of_mem_startsAfter hnext
          omega
      rw [List.filter_eq_nil_iff.2 fun next hnext => by simpa using hlate next hnext]
      rfl
    | succ n =>
      have hoffset : start + distance = start + byteSize line + 1 + n := by omega
      rw [hoffset, filter_le_cons (Nat.le_add_right ..), List.length_cons, ih,
        List.take_succ_cons, List.count_cons_self]

theorem length_startsUpTo (text : String) (offset : UInt64) :
    ((ofText text).startsUpTo offset).length = lineEndsBefore text offset.toNat + 1 := by
  have hlength := length_filter_startsAfter 0 offset.toNat text.toList
  rw [Nat.zero_add] at hlength
  rw [lineEndsBefore, toList_toUTF8, ← hlength, startsUpTo, ofText, filter_le_cons (Nat.zero_le _),
    List.length_cons]

theorem getElem?_startsAfter {cs : List Char} {i : Nat} (h : i < (cs.splitOn '\n').length)
    (start : Nat) :
    (start :: startsAfter start cs)[i]? =
      some (start + byteSize (((cs.splitOn '\n').take i).flatMap (· ++ ['\n']))) := by
  induction cs using lines_induction generalizing i start with
  | last line hline =>
    rw [List.splitOn_eq_singleton hline] at h
    obtain rfl : i = 0 := Nat.lt_one_iff.1 h
    rfl
  | line line rest hline ih =>
    rw [List.splitOn_append_cons_self_of_not_mem hline] at h ⊢
    cases i with
    | zero => rfl
    | succ i =>
      have hend : byteSize ['\n'] = 1 := rfl
      rw [startsAfter_line hline, List.getElem?_cons_succ, ih (Nat.lt_of_succ_lt_succ h),
        List.take_succ_cons, List.flatMap_cons, byteSize_append, byteSize_append, hend]
      congr 1
      omega

theorem getElem?_starts {text : String} {i : Nat} (h : i < (lines text).length) :
    (ofText text).starts[i]? = some (lineStart text i) := by
  rw [ofText, getElem?_startsAfter h, Nat.zero_add, lineStart, lines]

theorem lineAt_ofText (text : String) (offset : UInt64) :
    (ofText text).lineAt offset = lineEndsBefore text offset.toNat :=
  Nat.succ.inj ((lineAt_add_one _ offset).trans (length_startsUpTo text offset))

/-- The line of an offset begins after the lines before it. -/
theorem startAt_ofText (text : String) (offset : UInt64) :
    (ofText text).startAt offset = lineStart text (lineEndsBefore text offset.toNat) := by
  have hlt := (ofText text).lineAt_lt offset
  have hline : (ofText text).lineAt offset < (lines text).length := lineCount_ofText text ▸ hlt
  have hstart := getElem?_starts hline
  rw [List.getElem?_eq_getElem hlt, Option.some_inj] at hstart
  rw [← lineAt_ofText]
  exact hstart

theorem lineStart_le (text : String) (offset : UInt64) :
    lineStart text (lineEndsBefore text offset.toNat) ≤ offset.toNat := by
  have hle := getLast?_startsUpTo_le (ofText text) offset
  rwa [getLast?_startsUpTo_eq, Option.getD_some, startAt_ofText] at hle

/-! ## Checked positions -/

theorem toNat_ofNat_lineEndsBefore (text : String) (offset : UInt64) :
    (UInt64.ofNat (lineEndsBefore text offset.toNat)).toNat = lineEndsBefore text offset.toNat := by
  have hlength := length_startsUpTo text offset
  have hle := (ofText text).length_startsUpTo_le offset
  have hoffset := offset.toNat_lt_size
  exact UInt64.toNat_ofNat_of_lt' (by omega)

theorem toNat_ofNat_lineStart (text : String) (offset : UInt64) :
    (UInt64.ofNat (lineStart text (lineEndsBefore text offset.toNat))).toNat =
      lineStart text (lineEndsBefore text offset.toNat) :=
  UInt64.toNat_ofNat_of_lt' (Nat.lt_of_le_of_lt (lineStart_le text offset) offset.toNat_lt_size)

theorem lineStart_le_offset (text : String) (offset : UInt64) :
    UInt64.ofNat (lineStart text (lineEndsBefore text offset.toNat)) ≤ offset := by
  rw [UInt64.le_iff_toNat_le, toNat_ofNat_lineStart]
  exact lineStart_le text offset

/-- The distance from the start of a line never wraps around. -/
theorem toNat_sub_lineStart (text : String) (offset : UInt64) :
    (offset - UInt64.ofNat (lineStart text (lineEndsBefore text offset.toNat))).toNat =
      offset.toNat - lineStart text (lineEndsBefore text offset.toNat) := by
  rw [UInt64.toNat_sub_of_le _ _ (lineStart_le_offset text offset), toNat_ofNat_lineStart]

/-- The checked position of an offset, if the numbers of its line and its column fit 64 bits. -/
theorem position?_ofText (text : String) (offset : UInt64) :
    (ofText text).position? offset =
      if lineEndsBefore text offset.toNat + 1 < UInt64.size ∧
          offset.toNat - lineStart text (lineEndsBefore text offset.toNat) + 1 < UInt64.size then
        some ((ofText text).position offset)
      else none := by
  have hone : (1 : UInt64).toNat = 1 := rfl
  rw [position?, position, lineAt_ofText, startAt_ofText, Word.sub?,
    if_pos (lineStart_le_offset text offset), Word.add?, toNat_ofNat_lineEndsBefore, hone]
  simp only [Option.bind_eq_bind, Option.bind_some, Option.pure_def, Word.add?,
    toNat_sub_lineStart, hone]
  by_cases hfirst : lineEndsBefore text offset.toNat + 1 < UInt64.size
  · by_cases hsecond :
        offset.toNat - lineStart text (lineEndsBefore text offset.toNat) + 1 < UInt64.size
    · rw [if_pos hfirst, if_pos hsecond, if_pos ⟨hfirst, hsecond⟩]
      rfl
    · rw [if_pos hfirst, if_neg hsecond, if_neg (not_and_of_not_right _ hsecond)]
      rfl
  · rw [if_neg hfirst, if_neg (not_and_of_not_left _ hfirst)]
    rfl

theorem position?_eq_some {offset : UInt64} (h : offset.toNat < UInt64.size - 1) (text : String) :
    (ofText text).position? offset = some ((ofText text).position offset) := by
  have hline := length_startsUpTo text offset
  have hle := (ofText text).length_startsUpTo_le offset
  rw [position?_ofText, if_pos ⟨by omega, by omega⟩]

theorem eq_position_of_position? {text : String} {offset : UInt64} {p : Position}
    (h : (ofText text).position? offset = some p) : p = (ofText text).position offset := by
  rw [position?_ofText] at h
  split at h
  · exact (Option.some.inj h).symm
  · cases h

/-! ## What a position says -/

/-- A position counts the line ends before an offset and the bytes from the start of its line. -/
structure IsPosition (text : String) (offset : Nat) (p : Position) : Prop where
  line : p.line.toNat = lineEndsBefore text offset + 1
  line_le : p.line.toNat ≤ (ofText text).lineCount
  column_pos : 1 ≤ p.column.toNat
  column : lineStart text (p.line.toNat - 1) + (p.column.toNat - 1) = offset

/-- A checked position is right, whatever the offset. -/
theorem isPosition_of_position? {text : String} {offset : UInt64} {p : Position}
    (h : (ofText text).position? offset = some p) : IsPosition text offset.toNat p := by
  obtain rfl := eq_position_of_position? h
  rw [position?_ofText, Option.ite_none_right_eq_some] at h
  obtain ⟨⟨hends, hdistance⟩, -⟩ := h
  have hline : ((ofText text).position offset).line.toNat =
      lineEndsBefore text offset.toNat + 1 := by
    rw [position_eq, length_startsUpTo]
    exact UInt64.toNat_ofNat_of_lt' hends
  have hcolumn : ((ofText text).position offset).column.toNat =
      offset.toNat - lineStart text (lineEndsBefore text offset.toNat) + 1 := by
    rw [position, startAt_ofText, UInt64.toNat_add, toNat_sub_lineStart]
    exact Nat.mod_eq_of_lt hdistance
  have hstart := lineStart_le text offset
  refine ⟨hline, ?_, by omega, ?_⟩
  · rw [hline, ← length_startsUpTo]
    exact List.length_filter_le ..
  · rw [hline, Nat.add_sub_cancel, hcolumn]
    omega

theorem isPosition_position {offset : UInt64} (h : offset.toNat < UInt64.size - 1)
    (text : String) : IsPosition text offset.toNat ((ofText text).position offset) :=
  isPosition_of_position? (position?_eq_some h text)

/-- No two offsets lie at one position. -/
theorem position_injective {a b : UInt64} (ha : a.toNat < UInt64.size - 1)
    (hb : b.toNat < UInt64.size - 1) {text : String}
    (h : (ofText text).position a = (ofText text).position b) : a = b := by
  have hcolumn := (isPosition_position ha text).column
  rw [h, (isPosition_position hb text).column] at hcolumn
  exact UInt64.toNat_inj.1 hcolumn.symm

theorem lineText?_eq_none {text : String} {number : UInt64}
    (h : ¬ (1 ≤ number.toNat ∧ number.toNat ≤ (ofText text).lineCount)) :
    (ofText text).lineText? text number = none := by
  unfold lineText?
  cases hnumber : number.toNat with
  | zero => rfl
  | succ i =>
    have hlast : (ofText text).lineCount ≤ i := by omega
    simp only [List.getElem?_eq_none hlast]
    rfl

/-- Below the largest offset, the checked position of an offset exists and counts the line ends
before it and the bytes from the start of its line; offsets at one position are equal, and later
offsets lie at later positions. The text of a line is the piece of its number, less a carriage
return at its end, and there is no text for other numbers. -/
theorem position_lineText_ofText (text : String) :
    (∀ offset : UInt64, offset.toNat < UInt64.size - 1 →
      (ofText text).position? offset = some ((ofText text).position offset) ∧
        IsPosition text offset.toNat ((ofText text).position offset)) ∧
    (∀ a b : UInt64, a.toNat < UInt64.size - 1 → b.toNat < UInt64.size - 1 →
      ((ofText text).position a = (ofText text).position b → a = b) ∧
        (a < b → (ofText text).position a < (ofText text).position b)) ∧
    ∀ number : UInt64,
      if 1 ≤ number.toNat ∧ number.toNat ≤ (ofText text).lineCount then
        ∃ line shown, (lines text)[number.toNat - 1]? = some line ∧ IsShown line shown ∧
          (ofText text).lineText? text number = some (String.ofList shown)
      else (ofText text).lineText? text number = none := by
  refine ⟨fun offset h => ⟨position?_eq_some h text, isPosition_position h text⟩,
    fun a b ha hb => ⟨position_injective ha hb, fun hlt => ?_⟩, fun number => ?_⟩
  · refine Position.lt_of_le_of_ne (position_mono hb (UInt64.le_of_lt hlt) text) fun heq => ?_
    exact UInt64.lt_irrefl b (position_injective ha hb heq ▸ hlt)
  · split
    next h =>
      have hlt : number.toNat - 1 < (lines text).length := by
        have hcount := lineCount_ofText text
        omega
      have hline := List.getElem?_eq_getElem hlt
      exact ⟨_, _, hline, isShown_withoutReturn _,
        lineText?_ofText (Nat.sub_add_cancel h.1).symm hline⟩
    next h => exact lineText?_eq_none h

/-- A line that ends in a carriage return before one with a character of two bytes. -/
theorem position_lineText_ofText_accented :
    let text := "a\r\né;"
    (ofText text).position 5 = ⟨2, 3⟩ ∧ IsPosition text 5 ((ofText text).position 5) ∧
      (ofText text).position 2 < (ofText text).position 3 ∧
      ∃ line shown, (lines text)[0]? = some line ∧ IsShown line shown ∧
        (ofText text).lineText? text 1 = some (String.ofList shown) := by
  intro text
  obtain ⟨hposition, horder, htext⟩ := position_lineText_ofText text
  have hfirst := htext 1
  rw [if_pos (by decide)] at hfirst
  exact ⟨by decide, (hposition 5 (by decide)).2, (horder 2 3 (by decide) (by decide)).2 (by decide),
    hfirst⟩

end LineIndex

end HandleLint
