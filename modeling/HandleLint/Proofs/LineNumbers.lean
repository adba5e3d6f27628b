import HandleLint.Source.LineIndex
import Mathlib.Data.List.Range
import Mathlib.Data.List.Perm.Subperm

/-!
# Line numbers of a text

The index of a text is about the lines that one sees there:

* `Text.lines`: the pieces of a text between its line ends;
* `LineIndex.exists_of_lines`: where a line stands in the text, and what the index says of it;
* `LineIndex.lineText?_ofText`: the text of a line is the piece with its number;
* `LineIndex.position_mono`: later offsets lie at later positions, in the order of reading.
-/

namespace HandleLint

namespace Text

/-! ## Sizes in bytes -/

/-- The size of a text in bytes of UTF-8. -/
def byteSize : List Char → Nat
  | [] => 0
  | c :: cs => c.utf8Size + byteSize cs

@[simp] theorem byteSize_nil : byteSize [] = 0 := rfl

@[simp] theorem byteSize_cons (c : Char) (cs : List Char) :
    byteSize (c :: cs) = c.utf8Size + byteSize cs := rfl

@[simp] theorem byteSize_append (cs ds : List Char) :
    byteSize (cs ++ ds) = byteSize cs + byteSize ds := by
  induction cs with
  | nil => rw [List.nil_append, byteSize_nil, Nat.zero_add]
  | cons c cs ih => rw [List.cons_append, byteSize_cons, byteSize_cons, ih, Nat.add_assoc]

theorem utf8ByteSize_ofList (cs : List Char) : (String.ofList cs).utf8ByteSize = byteSize cs := by
  induction cs with
  | nil => rfl
  | cons c cs ih =>
    rw [String.ofList_cons, String.utf8ByteSize_append, String.utf8ByteSize_singleton, ih,
      byteSize_cons]

theorem utf8ByteSize_eq (text : String) : text.utf8ByteSize = byteSize text.toList := by
  rw [← utf8ByteSize_ofList, String.ofList_toList]

theorem dropBytes?_append (before cs : List Char) :
    dropBytes? (byteSize before) (before ++ cs) = some cs := by
  induction before with
  | nil => cases cs <;> rfl
  | cons c before ih =>
    obtain ⟨n, hn⟩ : ∃ n, c.utf8Size + byteSize before = n + 1 :=
      ⟨c.utf8Size + byteSize before - 1, by have := c.utf8Size_pos; omega⟩
    have hle : c.utf8Size ≤ n + 1 := by omega
    have hrest : n + 1 - c.utf8Size = byteSize before := by omega
    rw [byteSize_cons, hn, List.cons_append, dropBytes?, if_pos hle, hrest, ih]

theorem takeBytes?_append (cs after : List Char) :
    takeBytes? (byteSize cs) (cs ++ after) = some cs := by
  induction cs with
  | nil => cases after <;> rfl
  | cons c cs ih =>
    obtain ⟨n, hn⟩ : ∃ n, c.utf8Size + byteSize cs = n + 1 :=
      ⟨c.utf8Size + byteSize cs - 1, by have := c.utf8Size_pos; omega⟩
    have hle : c.utf8Size ≤ n + 1 := by omega
    have hrest : n + 1 - c.utf8Size = byteSize cs := by omega
    rw [byteSize_cons, hn, List.cons_append, takeBytes?, if_pos hle, hrest, ih]
    rfl

/-- A slice from the end of one part to the end of the next. -/
theorem sliceBytes?_append (before cs after : List Char) :
    sliceBytes? (byteSize before) (byteSize before + byteSize cs) (before ++ (cs ++ after)) =
      some cs := by
  have hle : byteSize before ≤ byteSize before + byteSize cs := Nat.le_add_right ..
  rw [sliceBytes?, if_pos hle, dropBytes?_append, Nat.add_sub_cancel_left]
  exact takeBytes?_append cs after

/-! ## Lines -/

/-- The lines of a text: what stands between its line ends. -/
def lines (text : String) : List (List Char) :=
  text.toList.splitOn '\n'

/-- Every text is a last line, or a line and its end before a text. -/
theorem lines_induction {P : List Char → Prop} (last : ∀ line, '\n' ∉ line → P line)
    (line : ∀ line rest, '\n' ∉ line → P rest → P (line ++ '\n' :: rest)) (cs : List Char) :
    P cs := by
  by_cases h : '\n' ∈ cs
  · obtain ⟨first, rest, heq, hfirst⟩ := List.eq_append_cons_of_mem h
    rw [heq]
    exact line first rest hfirst (lines_induction last line rest)
  · exact last cs h
termination_by cs.length
decreasing_by simp [heq]; omega

/-- A line as it is shown: less one carriage return, if it ends in one. -/
def IsShown (line shown : List Char) : Prop :=
  line = shown ++ ['\r'] ∨ line = shown ∧ ¬ ['\r'] <:+ line

end Text

/-- Positions in the order of reading. -/
instance : LE Position where
  le p q := p.line < q.line ∨ p.line = q.line ∧ p.column ≤ q.column

namespace LineIndex

open Text

theorem isShown_withoutReturn (line : List Char) : IsShown line (withoutReturn line) := by
  unfold withoutReturn
  cases h : withoutSuffix? ['\r'] line with
  | some shown => exact .inl (withoutSuffix?_eq_some_iff.1 h)
  | none =>
    refine .inr ⟨rfl, ?_⟩
    rintro ⟨shown, hline⟩
    rw [withoutSuffix?_eq_some_iff.2 hline.symm] at h
    cases h

/-! ## Where lines begin -/

theorem startsAfter_append {line : List Char} (h : '\n' ∉ line) (offset : Nat) (cs : List Char) :
    startsAfter offset (line ++ cs) = startsAfter (offset + byteSize line) cs := by
  induction line generalizing offset with
  | nil => rfl
  | cons c line ih =>
    have hc : c ≠ '\n' := fun heq => h (heq ▸ .head _)
    rw [List.cons_append, startsAfter, if_neg hc, ih fun hmem => h (.tail _ hmem), byteSize_cons,
      Nat.add_assoc]

theorem startsAfter_line {line : List Char} (h : '\n' ∉ line) (offset : Nat) (rest : List Char) :
    startsAfter offset (line ++ '\n' :: rest) =
      (offset + byteSize line + 1) :: startsAfter (offset + byteSize line + 1) rest := by
  rw [startsAfter_append h, startsAfter, if_pos rfl]
  rfl

theorem startsAfter_last {line : List Char} (h : '\n' ∉ line) (offset : Nat) :
    startsAfter offset line = [] := by
  have happend := startsAfter_append h offset []
  rwa [List.append_nil] at happend

theorem length_startsAfter (offset : Nat) (cs : List Char) :
    (startsAfter offset cs).length + 1 = (cs.splitOn '\n').length := by
  induction cs using lines_induction generalizing offset with
  | last line h => rw [startsAfter_last h, List.splitOn_eq_singleton h]; rfl
  | line line rest h ih =>
    rw [startsAfter_line h, List.splitOn_append_cons_self_of_not_mem h, List.length_cons, ih,
      List.length_cons]

/-- A text has as many lines as its index. -/
theorem lineCount_ofText (text : String) : (ofText text).lineCount = (lines text).length :=
  length_startsAfter 0 text.toList

/-- A line stands at the offset that is listed for it, and the next line begins after its end. -/
theorem exists_of_splitOn {cs : List Char} {i : Nat} {line : List Char}
    (h : (cs.splitOn '\n')[i]? = some line) (offset : Nat) :
    ∃ before after, cs = before ++ (line ++ after) ∧
      (offset :: startsAfter offset cs)[i]? = some (offset + byteSize before) ∧
      ((startsAfter offset cs)[i]? = some (offset + byteSize before + byteSize line + 1) ∨
        (startsAfter offset cs)[i]? = none ∧ after = []) := by
  induction cs using lines_induction generalizing i offset with
  | last cs hcs =>
    rw [List.splitOn_eq_singleton hcs] at h
    cases i with
    | zero =>
      obtain rfl : cs = line := Option.some.inj h
      exact ⟨[], [], (List.append_nil _).symm, rfl, .inr ⟨by rw [startsAfter_last hcs]; rfl, rfl⟩⟩
    | succ i => cases h
  | line first rest hfirst ih =>
    rw [List.splitOn_append_cons_self_of_not_mem hfirst] at h
    cases i with
    | zero =>
      obtain rfl : first = line := Option.some.inj h
      refine ⟨[], '\n' :: rest, rfl, rfl, .inl ?_⟩
      rw [startsAfter_line hfirst]
      rfl
    | succ i =>
      obtain ⟨before, after, hcs, hstart, hnext⟩ := ih h (offset + byteSize first + 1)
      have hsize : offset + byteSize (first ++ '\n' :: before) =
          offset + byteSize first + 1 + byteSize before := by
        have hend : '\n'.utf8Size = 1 := rfl
        rw [byteSize_append, byteSize_cons, hend]
        omega
      refine ⟨first ++ '\n' :: before, after, ?_, ?_, ?_⟩
      · rw [hcs, List.append_assoc, List.cons_append]
      · rw [startsAfter_line hfirst, hsize]
        exact hstart
      · rw [startsAfter_line hfirst, hsize]
        exact hnext

/-- The text of a line is the piece with its number. -/
theorem lineText?_ofText {text : String} {number : UInt64} {i : Nat} {line : List Char}
    (hnumber : number.toNat = i + 1) (h : (lines text)[i]? = some line) :
    (ofText text).lineText? text number = some (String.ofList (withoutReturn line)) := by
  obtain ⟨before, after, htext, hstart, hnext⟩ := exists_of_splitOn h 0
  rw [Nat.zero_add] at hstart hnext
  have hslice := sliceBytes?_append before line after
  rw [← htext] at hslice
  have hstart' : (ofText text).starts[i]? = some (byteSize before) := hstart
  have hnext' : (ofText text).starts[i + 1]? = (startsAfter 0 text.toList)[i]? := rfl
  unfold lineText?
  simp only [hnumber, hstart', hnext', Option.bind_eq_bind, Option.bind_some]
  obtain hnext | ⟨hlast, hafter⟩ := hnext
  · simp only [hnext, Nat.add_sub_cancel, hslice, Option.bind_some]
    rfl
  · have hsize : text.utf8ByteSize = byteSize before + byteSize line := by
      rw [utf8ByteSize_eq, htext, hafter, byteSize_append, byteSize_append]
      rfl
    simp only [hlast, hsize, hslice, Option.bind_some]
    rfl

/-! ## Positions -/

theorem filter_le_cons {start offset : Nat} (h : start ≤ offset) (starts : List Nat) :
    (start :: starts).filter (· ≤ offset) = start :: starts.filter (· ≤ offset) := by
  simp [h]

/-- In increasing numbers, a search leads just past the numbers up to the one that is looked for. -/
theorem findIdx_lt_eq {numbers : List Nat} (h : numbers.Pairwise (· < ·)) (n : Nat) :
    numbers.findIdx (n < ·) = (numbers.filter (· ≤ n)).length := by
  induction h with
  | nil => rfl
  | @cons first rest hfirst _ ih =>
    rw [List.findIdx_cons]
    by_cases hle : first ≤ n
    · rw [decide_eq_false (Nat.not_lt.2 hle), cond_false, ih, filter_le_cons hle,
        List.length_cons]
    · have hnone : (first :: rest).filter (· ≤ n) = [] := by
        refine List.filter_eq_nil_iff.2 (List.forall_mem_cons.2 ⟨by simpa using hle, ?_⟩)
        intro next hnext
        have := hfirst next hnext
        simp only [decide_eq_true_eq]
        omega
      rw [decide_eq_true (Nat.lt_of_not_le hle), hnone]
      rfl

theorem findIdx_lt_of_idxOf? {numbers : List Nat} (h : numbers.Pairwise (· < ·)) {n i : Nat}
    (hn : numbers.idxOf? n = some i) : numbers.findIdx (n < ·) = i + 1 := by
  induction h generalizing i with
  | nil => cases hn
  | @cons first rest hfirst _ ih =>
    rw [List.idxOf?_cons] at hn
    rw [List.findIdx_cons]
    split at hn
    · rename_i heq
      obtain rfl := eq_of_beq heq
      cases hn
      rw [decide_eq_false (Nat.lt_irrefl _), cond_false]
      cases rest with
      | nil => rfl
      | cons next later =>
        rw [List.findIdx_cons, decide_eq_true (hfirst next List.mem_cons_self)]
        rfl
    · obtain ⟨j, hj, rfl⟩ := Option.map_eq_some_iff.1 hn
      obtain ⟨hlt, heq, -⟩ := List.findIdx?_eq_some_iff_getElem.1 hj
      have hmem : n ∈ rest := eq_of_beq heq ▸ List.getElem_mem hlt
      rw [decide_eq_false (Nat.lt_asymm (hfirst n hmem)), cond_false, ih hj]

/-- In increasing order, the numbers up to a bound come first. -/
theorem filter_le_eq_take {starts : List Nat} (h : starts.Pairwise (· < ·)) (offset : Nat) :
    starts.filter (· ≤ offset) = starts.take (starts.filter (· ≤ offset)).length := by
  induction h with
  | nil => rfl
  | @cons start starts hstart _ ih =>
    by_cases hle : start ≤ offset
    · rw [filter_le_cons hle, List.length_cons, List.take_succ_cons, ← ih]
    · have hnone : (start :: starts).filter (· ≤ offset) = [] := by
        refine List.filter_eq_nil_iff.2 fun next hnext hbegun => hle ?_
        obtain rfl | hnext := List.mem_cons.1 hnext
        · exact of_decide_eq_true hbegun
        · exact Nat.le_trans (Nat.le_of_lt (hstart _ hnext)) (of_decide_eq_true hbegun)
      rw [hnone]
      rfl

/-- The lines that begin at or before an offset. -/
def startsUpTo (index : LineIndex) (offset : UInt64) : List Nat :=
  index.starts.filter (· ≤ offset.toNat)

/-- There are no more places for lines to begin than there are offsets. -/
theorem length_startsUpTo_le (index : LineIndex) (offset : UInt64) :
    (index.startsUpTo offset).length ≤ offset.toNat + 1 := by
  have hnodup : (index.startsUpTo offset).Nodup :=
    (index.increasing.imp fun hlt => Nat.ne_of_lt hlt).filter _
  have hsubset : index.startsUpTo offset ⊆ List.range (offset.toNat + 1) := by
    intro start hstart
    have hle : start ≤ offset.toNat := of_decide_eq_true (List.mem_filter.1 hstart).2
    exact List.mem_range.2 (by omega)
  have hle := (hnodup.subperm hsubset).length_le
  rwa [List.length_range] at hle

theorem length_startsUpTo_pos (index : LineIndex) (offset : UInt64) :
    0 < (index.startsUpTo offset).length :=
  List.length_pos_of_mem
    (List.mem_filter.2 ⟨List.mem_of_head? index.head?_starts, decide_eq_true (Nat.zero_le _)⟩)

/-- The line of an offset is the last one that begins at or before it. -/
theorem lineAt_add_one (index : LineIndex) (offset : UInt64) :
    index.lineAt offset + 1 = (index.startsUpTo offset).length := by
  have hfind := findIdx_lt_eq index.increasing offset.toNat
  have hpos := index.length_startsUpTo_pos offset
  unfold lineAt search startsUpTo at *
  cases hplace : index.starts.idxOf? offset.toNat with
  | some i => exact (findIdx_lt_of_idxOf? index.increasing hplace).symm.trans hfind
  | none =>
    show index.starts.findIdx _ - 1 + 1 = _
    rw [hfind, Nat.sub_add_cancel hpos]

theorem getLast?_startsUpTo_eq (index : LineIndex) (offset : UInt64) :
    (index.startsUpTo offset).getLast? = some (index.startAt offset) := by
  have htake := filter_le_eq_take index.increasing offset.toNat
  rw [List.getLast?_eq_getElem?, ← lineAt_add_one, Nat.add_sub_cancel, startsUpTo, htake]
  show (index.starts.take (index.startsUpTo offset).length)[_]? = _
  rw [← lineAt_add_one, List.getElem?_take_of_lt (Nat.lt_succ_self _),
    List.getElem?_eq_getElem (index.lineAt_lt offset)]
  rfl

/-- The position of an offset, from the lines that begin at or before it. -/
theorem position_eq (index : LineIndex) (offset : UInt64) :
    index.position offset =
      { line := UInt64.ofNat (index.startsUpTo offset).length
        column := offset - UInt64.ofNat ((index.startsUpTo offset).getLast?.getD 0) + 1 } := by
  rw [position, ← lineAt_add_one, getLast?_startsUpTo_eq, Option.getD_some, UInt64.ofNat_add]
  rfl

theorem startsUpTo_sublist (index : LineIndex) {a b : UInt64} (h : a ≤ b) :
    (index.startsUpTo a).Sublist (index.startsUpTo b) := by
  refine List.monotone_filter_right _ fun start hstart => ?_
  have hle : start ≤ a.toNat := of_decide_eq_true hstart
  have hab : a.toNat ≤ b.toNat := UInt64.le_iff_toNat_le.1 h
  exact decide_eq_true (by omega)

theorem toNat_line_position {offset : UInt64} (h : offset.toNat < UInt64.size - 1) (text : String) :
    ((ofText text).position offset).line.toNat = ((ofText text).startsUpTo offset).length := by
  have hle := (ofText text).length_startsUpTo_le offset
  rw [position_eq]
  exact UInt64.toNat_ofNat_of_lt' (by omega)

/-- The line on which an offset lies is one of the text. -/
theorem exists_line_position {offset : UInt64} (h : offset.toNat < UInt64.size - 1)
    (text : String) : ∃ i line,
      ((ofText text).position offset).line.toNat = i + 1 ∧ (lines text)[i]? = some line := by
  have hpos := (ofText text).length_startsUpTo_pos offset
  have hle : ((ofText text).startsUpTo offset).length ≤ (lines text).length := by
    rw [← lineCount_ofText]
    exact List.length_filter_le ..
  obtain ⟨i, hi⟩ : ∃ i, ((ofText text).startsUpTo offset).length = i + 1 :=
    ⟨_, (Nat.sub_add_cancel hpos).symm⟩
  have hlt : i < (lines text).length := by omega
  exact ⟨i, (lines text)[i], (toNat_line_position h text).trans hi, List.getElem?_eq_getElem hlt⟩

/-- The line that an offset lies on begins no later. -/
theorem getLast?_startsUpTo_le (index : LineIndex) (offset : UInt64) :
    (index.startsUpTo offset).getLast?.getD 0 ≤ offset.toNat := by
  cases hlast : (index.startsUpTo offset).getLast? with
  | none => exact Nat.zero_le _
  | some start =>
    have hmem := List.mem_filter.1 (List.mem_of_getLast? hlast)
    exact of_decide_eq_true hmem.2

theorem toNat_column_position {offset : UInt64} (h : offset.toNat < UInt64.size - 1)
    (index : LineIndex) :
    (index.position offset).column.toNat =
      offset.toNat - (index.startsUpTo offset).getLast?.getD 0 + 1 := by
  have hle := getLast?_startsUpTo_le index offset
  have hsize : UInt64.size = 2 ^ 64 := rfl
  have hstart : (UInt64.ofNat ((index.startsUpTo offset).getLast?.getD 0)).toNat =
      (index.startsUpTo offset).getLast?.getD 0 := UInt64.toNat_ofNat_of_lt' (by omega)
  have hsub := UInt64.toNat_sub_of_le offset _ (UInt64.le_iff_toNat_le.2 (hstart ▸ hle))
  have hone : (1 : UInt64).toNat = 1 := rfl
  rw [position_eq, UInt64.toNat_add, hsub, hstart, hone]
  omega

/-- Later offsets lie at later positions. -/
theorem position_mono {before offset : UInt64} (h : offset.toNat < UInt64.size - 1)
    (hle : before ≤ offset) (text : String) :
    (ofText text).position before ≤ (ofText text).position offset := by
  have hnat : before.toNat ≤ offset.toNat := UInt64.le_iff_toNat_le.1 hle
  have hbefore : before.toNat < UInt64.size - 1 := by omega
  have hsublist := startsUpTo_sublist (ofText text) hle
  by_cases hlength :
      ((ofText text).startsUpTo before).length = ((ofText text).startsUpTo offset).length
  · -- On one line, both columns count from the same start.
    have hstarts := hsublist.eq_of_length hlength
    refine .inr ⟨by rw [position_eq, position_eq, hstarts], UInt64.le_iff_toNat_le.2 ?_⟩
    rw [toNat_column_position hbefore, toNat_column_position h, hstarts]
    omega
  · refine .inl (UInt64.lt_iff_toNat_lt.2 ?_)
    rw [toNat_line_position hbefore, toNat_line_position h]
    exact Nat.lt_of_le_of_ne hsublist.length_le hlength

end LineIndex

end HandleLint
