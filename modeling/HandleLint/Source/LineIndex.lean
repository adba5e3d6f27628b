import HandleLint.Text.Cut

/-!
# Lines of a source text

A line index holds the byte offset at which each line of a text begins, and turns byte offsets into
line and column numbers, both counted from 1.

* `LineIndex.ofText`: the index of a text, whose lines end at `\n`;
* `LineIndex.search`: the place of an offset among those at which lines begin;
* `LineIndex.position`: line and column of a byte offset; an offset past the end lies on the last
  line;
* `LineIndex.position?`: the same with checked arithmetic, which gives nothing where it overflows;
* `LineIndex.lineText?`: the text of a line, without its end.
-/

namespace HandleLint

namespace Word

/-- A sum, if it fits 64 bits. -/
def add? (a b : UInt64) : Option UInt64 :=
  if a.toNat + b.toNat < UInt64.size then some (a + b) else none

/-- A difference, if it is not negative. -/
def sub? (a b : UInt64) : Option UInt64 :=
  if b ≤ a then some (a - b) else none

end Word

/-- A place in a text. Numbers start at 1, and columns count bytes. -/
structure Position where
  line : UInt64
  column : UInt64
  deriving DecidableEq, Repr

/-- The byte offsets at which the lines of a text begin, in increasing order; the first is 0. -/
structure LineIndex where
  starts : List Nat
  head?_starts : starts.head? = some 0
  increasing : starts.Pairwise (· < ·)
  deriving DecidableEq, Repr

namespace LineIndex

/-- The offsets just after each line end, for text that begins at an offset. -/
def startsAfter (offset : Nat) : List Char → List Nat
  | [] => []
  | c :: cs =>
    let next := offset + c.utf8Size
    if c = '\n' then next :: startsAfter next cs else startsAfter next cs

theorem lt_of_mem_startsAfter {offset start : Nat} {cs : List Char}
    (h : start ∈ startsAfter offset cs) : offset < start := by
  induction cs generalizing offset with
  | nil => cases h
  | cons c cs ih =>
    have hsize := c.utf8Size_pos
    rw [startsAfter] at h
    split at h
    · obtain rfl | h := List.mem_cons.1 h
      · omega
      · exact Nat.lt_trans (by omega) (ih h)
    · exact Nat.lt_trans (by omega) (ih h)

theorem pairwise_startsAfter (offset : Nat) (cs : List Char) :
    (offset :: startsAfter offset cs).Pairwise (· < ·) := by
  refine List.pairwise_cons.2 ⟨fun start hstart => lt_of_mem_startsAfter hstart, ?_⟩
  induction cs generalizing offset with
  | nil => exact .nil
  | cons c cs ih =>
    rw [startsAfter]
    split
    · exact List.pairwise_cons.2 ⟨fun start hstart => lt_of_mem_startsAfter hstart, ih _⟩
    · exact ih _

def ofText (text : String) : LineIndex where
  starts := 0 :: startsAfter 0 text.toList
  head?_starts := rfl
  increasing := pairwise_startsAfter 0 text.toList

def lineCount (index : LineIndex) : Nat :=
  index.starts.length

/-! ## Positions -/

/-- What a binary search for a number gives in increasing numbers: its place if it is among them,
and else the place where it would have to be put. -/
def search (numbers : List Nat) (n : Nat) : Except Nat Nat :=
  match numbers.idxOf? n with
  | some i => .ok i
  | none => .error (numbers.findIdx (n < ·))

/-- The place in the index of the line that an offset lies on. -/
def lineAt (index : LineIndex) (offset : UInt64) : Nat :=
  match search index.starts offset.toNat with
  | .ok i => i
  | .error i => i - 1

theorem lineAt_lt (index : LineIndex) (offset : UInt64) :
    index.lineAt offset < index.starts.length := by
  have hpos : 0 < index.starts.length :=
    List.length_pos_of_mem (List.mem_of_head? index.head?_starts)
  unfold lineAt search
  cases hplace : index.starts.idxOf? offset.toNat with
  | some i => exact (List.findIdx?_eq_some_iff_getElem.1 hplace).1
  | none =>
    have hle : index.starts.findIdx (offset.toNat < ·) ≤ index.starts.length :=
      List.findIdx_le_length
    show index.starts.findIdx _ - 1 < _
    omega

/-- Where the line begins that an offset lies on. -/
def startAt (index : LineIndex) (offset : UInt64) : Nat :=
  index.starts.get ⟨index.lineAt offset, index.lineAt_lt offset⟩

/-- The line and the column of a byte offset, in 64-bit arithmetic. -/
def position (index : LineIndex) (offset : UInt64) : Position :=
  { line := UInt64.ofNat (index.lineAt offset) + 1
    column := offset - UInt64.ofNat (index.startAt offset) + 1 }

/-- The line and the column of a byte offset, computed step by step in checked arithmetic: the line
from its place in the index, the column from the distance to the start of the line. -/
def position? (index : LineIndex) (offset : UInt64) : Option Position := do
  let line ← Word.add? (UInt64.ofNat (index.lineAt offset)) 1
  let distance ← Word.sub? offset (UInt64.ofNat (index.startAt offset))
  let column ← Word.add? distance 1
  return { line, column }

/-! ## Lines -/

/-- A line less one carriage return at its end. -/
def withoutReturn (line : List Char) : List Char :=
  (Text.withoutSuffix? ['\r'] line).getD line

/-- The text of a line, counted from 1, cut from `text` at the offsets of this index. There is none
past the last line, nor where an offset does not stand between two characters of `text`. -/
def lineText? (index : LineIndex) (text : String) (line : UInt64) : Option String :=
  match line.toNat with
  | 0 => none
  | i + 1 => do
    let start ← index.starts[i]?
    let stop := match index.starts[i + 1]? with
      | some next => next - 1
      | none => text.utf8ByteSize
    let cs ← Text.sliceBytes? start stop text.toList
    return String.ofList (withoutReturn cs)

end LineIndex

end HandleLint
