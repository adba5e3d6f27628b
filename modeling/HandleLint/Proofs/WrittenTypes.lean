import HandleLint.Names.TypeNames
import Mathlib.Data.List.DropRight
import Mathlib.Data.List.TakeWhile

/-!
# Types with arguments and array suffixes

A type is written as a name, type arguments and array suffixes, with blanks around each of them.
Qualifying it goes from the right end of the text: it trims, takes one suffix off and starts again,
and at last cuts at the first angle bracket. Whatever stands between the brackets, arrays and blanks
included, none of it comes through:

* `Text.trim_append_of_ends`: trimming before an array suffix;
* `TypeText`: how a type may be written;
* `Unwraps`: the calls that qualifying a text makes, one inside the other;
* `TypeNames.qualify_typeText`: a written type is qualified as its name is, with its suffixes, and
  qualifying ends on every text.
-/

namespace HandleLint

/-! ## Trimming -/

namespace Text

variable {before after cs : List Char}

/-- Nothing but blanks. -/
def Blanks (cs : List Char) : Prop :=
  ∀ c ∈ cs, isBlank c = true

theorem trimLeft_blanks_append (h : Blanks before) (cs : List Char) :
    trimLeft (before ++ cs) = trimLeft cs :=
  List.dropWhile_append_of_pos h

theorem trimRight_append_blanks (h : Blanks after) (cs : List Char) :
    trimRight (cs ++ after) = trimRight cs := by
  have hreverse : ∀ c ∈ after.reverse, isBlank c = true := fun c hc => h c (List.mem_reverse.1 hc)
  rw [trimRight, List.reverse_append, List.dropWhile_append_of_pos hreverse, trimRight]

/-- What follows a text is trimmed on its left only where the text has nothing but blanks. -/
theorem trimLeft_append (cs rest : List Char) :
    trimLeft (cs ++ rest) =
      if (trimLeft cs).isEmpty then trimLeft rest else trimLeft cs ++ rest :=
  List.dropWhile_append

theorem trim_blanks_append (h : Blanks before) (cs : List Char) :
    trim (before ++ cs) = trim cs := by
  rw [trim, trimLeft_blanks_append h, trim]

theorem trim_append_blanks (h : Blanks after) (cs : List Char) : trim (cs ++ after) = trim cs := by
  rw [trim, trim, trimLeft_append]
  split
  · rename_i hnil
    rw [List.isEmpty_iff.1 hnil, trimLeft, List.dropWhile_eq_nil_iff.2 h]
  · exact trimRight_append_blanks h _

theorem trim_trimLeft (cs : List Char) : trim (trimLeft cs) = trim cs := by
  rw [trim, trim, trimLeft, trimLeft, List.dropWhile_idempotent]

/-- A text whose first character is not blank. -/
theorem trimLeft_eq_self (first : ∀ c ∈ cs.head?, isBlank c = false) : trimLeft cs = cs := by
  cases cs with
  | nil => rfl
  | cons c rest => exact List.dropWhile_cons_of_neg (by simpa using first c rfl)

/-- A text whose last character is not blank. -/
theorem trimRight_eq_self (last : ∀ c ∈ cs.getLast?, isBlank c = false) : trimRight cs = cs := by
  rw [List.getLast?_eq_head?_reverse] at last
  have hreverse : cs.reverse.dropWhile isBlank = cs.reverse := trimLeft_eq_self last
  rw [trimRight, hreverse, List.reverse_reverse]

theorem trim_eq_self (first : ∀ c ∈ cs.head?, isBlank c = false)
    (last : ∀ c ∈ cs.getLast?, isBlank c = false) : trim cs = cs := by
  rw [trim, trimLeft_eq_self first, trimRight_eq_self last]

/-- What is trimmed already has no blank at its end. -/
theorem trimRight_of_trim (h : trim cs = cs) : trimRight cs = cs := by
  have hidem : trimRight (trim cs) = trim cs := by
    rw [trim, trimRight, trimRight, List.reverse_reverse, List.dropWhile_idempotent]
  rwa [h] at hidem

/-- Before a text with no blanks at its ends, only blanks on the left are trimmed. -/
theorem trim_append_of_ends {rest : List Char} (nonempty : rest ≠ [])
    (first : ∀ c ∈ rest.head?, isBlank c = false) (last : ∀ c ∈ rest.getLast?, isBlank c = false)
    (cs : List Char) : trim (cs ++ rest) = trimLeft cs ++ rest := by
  have hleft : trimLeft (cs ++ rest) = trimLeft cs ++ rest := by
    rw [trimLeft_append]
    split
    · rename_i hnil
      rw [List.isEmpty_iff.1 hnil, trimLeft_eq_self first, List.nil_append]
    · rfl
  rw [trim, hleft]
  refine trimRight_eq_self ?_
  rwa [List.getLast?_append_of_ne_nil _ nonempty]

end Text

/-! ## Types as they are written -/

/-- A name without anything that a type may have after it. -/
structure BaseName (name : String) : Prop where
  trimmed : Text.trim name.toList = name.toList
  no_arguments : '<' ∉ name.toList
  no_array : ¬ ['[', ']'] <:+ name.toList

/-- Nothing, or any text between angle brackets. -/
def TypeArguments (args : String) : Prop :=
  args = "" ∨ ∃ inner : String, args = "<" ++ inner ++ ">"

/-- A part of a type, with blanks around it. -/
inductive Padded (part : List Char) : List Char → Prop
  | mk (before after : List Char) : Text.Blanks before → Text.Blanks after →
      Padded part (before ++ part ++ after)

/-- The text of a type with a name, type arguments and a number of array suffixes, each with blanks
around it. -/
inductive TypeText (name args : String) : Nat → List Char → Prop
  | plain {written written' : List Char} : Padded name.toList written →
      Padded args.toList written' → TypeText name args 0 (written ++ written')
  | array {k : Nat} {written suffix : List Char} : TypeText name args k written →
      Padded ['[', ']'] suffix → TypeText name args (k + 1) (written ++ suffix)

/-- So many array suffixes. -/
def suffixes : Nat → String
  | 0 => ""
  | k + 1 => suffixes k ++ "[]"

/-- Qualifying the first text leads, through a number of calls one inside the other, to qualifying
the last. -/
inductive Unwraps : Nat → List Char → List Char → Prop
  | refl {written : List Char} : Unwraps 0 written written
  | call {k : Nat} {written element last : List Char} :
      Text.withoutSuffix? ['[', ']'] (Text.trim written) = some element →
      Unwraps k element last → Unwraps (k + 1) written last

namespace TypeNames

variable (names : TypeNames) {name args : String} {k : Nat} {written element last : List Char}

/-! ## One call -/

theorem qualifyChars_of_array
    (h : Text.withoutSuffix? ['[', ']'] (Text.trim written) = some element) :
    names.qualifyChars written = (names.qualifyChars element).map (· ++ "[]") := by
  rw [qualifyChars]
  split
  · rename_i hsome
    rw [h] at hsome
    cases hsome
    rfl
  · rename_i hnone
    rw [h] at hnone
    cases hnone

theorem qualifyChars_of_no_array
    (h : Text.withoutSuffix? ['[', ']'] (Text.trim written) = none) :
    names.qualifyChars written =
      names.qualifyName (Text.trimRight ((Text.trim written).takeWhile (· ≠ '<'))) := by
  rw [qualifyChars]
  split
  · rename_i hsome
    rw [h] at hsome
    cases hsome
  · rfl

/-- Blanks at the ends of a text do not matter. -/
theorem qualifyChars_congr {written' : List Char} (h : Text.trim written = Text.trim written') :
    names.qualifyChars written = names.qualifyChars written' := by
  cases hcut : Text.withoutSuffix? ['[', ']'] (Text.trim written) with
  | some element =>
    rw [names.qualifyChars_of_array hcut]
    rw [h] at hcut
    rw [names.qualifyChars_of_array hcut]
  | none =>
    rw [names.qualifyChars_of_no_array hcut]
    rw [h] at hcut
    rw [names.qualifyChars_of_no_array hcut, h]

/-- One array suffix is kept, whatever blanks stand around it. -/
theorem qualifyChars_append_suffix {suffix : List Char} (h : Padded ['[', ']'] suffix)
    (written : List Char) :
    names.qualifyChars (written ++ suffix) = (names.qualifyChars written).map (· ++ "[]") := by
  obtain ⟨before, after, hbefore, hafter⟩ := h
  have htrim : Text.trim (written ++ (before ++ ['[', ']'] ++ after)) =
      Text.trimLeft (written ++ before) ++ ['[', ']'] := by
    rw [← List.append_assoc, ← List.append_assoc, Text.trim_append_blanks hafter]
    exact Text.trim_append_of_ends (by simp) (by rintro _ ⟨⟩; rfl) (by rintro _ ⟨⟩; rfl) _
  rw [names.qualifyChars_of_array (Text.withoutSuffix?_eq_some_iff.2 htrim)]
  congr 1
  refine names.qualifyChars_congr ?_
  rw [Text.trim_trimLeft, Text.trim_append_blanks hbefore]

end TypeNames

namespace BaseName

variable {name args : String} (h : BaseName name) (names : TypeNames)
include h

theorem qualify_eq : names.qualify name = names.qualifyName name.toList := by
  have hcut : Text.withoutSuffix? ['[', ']'] (Text.trim name.toList) = none := by
    rw [h.trimmed, Option.eq_none_iff_forall_ne_some]
    intro element hcut
    exact h.no_array ⟨element, (Text.withoutSuffix?_eq_some_iff.1 hcut).symm⟩
  have htake : name.toList.takeWhile (· ≠ '<') = name.toList := by
    refine List.takeWhile_eq_self_iff.2 fun c hc => decide_eq_true ?_
    rintro rfl
    exact h.no_arguments hc
  rw [TypeNames.qualify, names.qualifyChars_of_no_array hcut, h.trimmed, htake,
    Text.trimRight_of_trim h.trimmed]

/-- Type arguments are dropped, with the blanks before them. -/
theorem qualifyChars_arguments {gap : List Char} (hgap : Text.Blanks gap) (inner : List Char) :
    names.qualifyChars (name.toList ++ gap ++ (('<' :: inner) ++ ['>'])) = names.qualify name := by
  have htrim : Text.trim (name.toList ++ gap ++ (('<' :: inner) ++ ['>'])) =
      Text.trimLeft (name.toList ++ gap) ++ (('<' :: inner) ++ ['>']) := by
    refine Text.trim_append_of_ends (by simp) (by rintro _ ⟨⟩; rfl) ?_ _
    rw [List.getLast?_concat]
    rintro _ ⟨⟩
    rfl
  have hcut : Text.withoutSuffix? ['[', ']']
      (Text.trim (name.toList ++ gap ++ (('<' :: inner) ++ ['>']))) = none := by
    rw [htrim, ← List.append_assoc, Option.eq_none_iff_forall_ne_some]
    intro element hcut
    have hlast := congrArg List.getLast? (Text.withoutSuffix?_eq_some_iff.1 hcut)
    rw [List.getLast?_concat] at hlast
    simp at hlast
  have htake : (Text.trimLeft (name.toList ++ gap) ++ (('<' :: inner) ++ ['>'])).takeWhile
      (· ≠ '<') = Text.trimLeft (name.toList ++ gap) := by
    have hlead : ∀ c ∈ Text.trimLeft (name.toList ++ gap), decide (c ≠ '<') = true := by
      intro c hc
      refine decide_eq_true ?_
      rintro rfl
      rcases List.mem_append.1 ((List.dropWhile_sublist _).subset hc) with hc | hc
      · exact h.no_arguments hc
      · exact absurd (hgap _ hc) (by decide)
    rw [List.takeWhile_append_of_pos hlead]
    simp
  have hname : Text.trimRight (Text.trimLeft (name.toList ++ gap)) = name.toList := by
    rw [← Text.trim, Text.trim_append_blanks hgap, h.trimmed]
  rw [names.qualifyChars_of_no_array hcut, htrim, htake, hname, h.qualify_eq]

/-- A name with type arguments is qualified as the name alone is. -/
theorem qualifyChars_plain (hargs : TypeArguments args) {written written' : List Char}
    (hwritten : Padded name.toList written) (hwritten' : Padded args.toList written') :
    names.qualifyChars (written ++ written') = names.qualify name := by
  obtain ⟨before, after, hbefore, hafter⟩ := hwritten
  obtain ⟨before', after', hbefore', hafter'⟩ := hwritten'
  have hgap : Text.Blanks (after ++ before') := List.forall_mem_append.2 ⟨hafter, hbefore'⟩
  have htrim : Text.trim (before ++ name.toList ++ after ++ (before' ++ args.toList ++ after')) =
      Text.trim (name.toList ++ (after ++ before') ++ args.toList) := by
    rw [← List.append_assoc, Text.trim_append_blanks hafter', List.append_assoc before,
      List.append_assoc before, Text.trim_blanks_append hbefore]
    simp only [List.append_assoc]
  rw [names.qualifyChars_congr htrim]
  rcases hargs with rfl | ⟨inner, rfl⟩
  · have hname : Text.trim (name.toList ++ (after ++ before') ++ "".toList) =
        Text.trim name.toList := by
      rw [String.toList_empty, List.append_nil, Text.trim_append_blanks hgap]
    rw [names.qualifyChars_congr hname, TypeNames.qualify]
  · have hargs : ("<" ++ inner ++ ">").toList = ('<' :: inner.toList) ++ ['>'] := by simp
    rw [hargs, h.qualifyChars_arguments names hgap]

end BaseName

/-! ## All calls -/

namespace TypeNames

variable (names : TypeNames) {name args : String} {k : Nat} {written element last : List Char}

theorem qualifyChars_typeText (hname : BaseName name) (hargs : TypeArguments args)
    (h : TypeText name args k written) :
    names.qualifyChars written = (names.qualify name).map (· ++ suffixes k) := by
  induction h with
  | plain hwritten hwritten' =>
    rw [hname.qualifyChars_plain names hargs hwritten hwritten']
    cases names.qualify name <;> simp [suffixes]
  | array _ hsuffix ih =>
    rw [names.qualifyChars_append_suffix hsuffix, ih, Option.map_map]
    congr 1
    funext qualified
    simp [suffixes, String.append_assoc]

/-- What a call inside other calls answers gets one suffix for each of them. -/
theorem qualifyChars_unwraps (h : Unwraps k written last) :
    names.qualifyChars written = (names.qualifyChars last).map (· ++ suffixes k) := by
  induction h with
  | refl => simp [suffixes]
  | call hcut _ ih =>
    rw [names.qualifyChars_of_array hcut, ih, Option.map_map]
    congr 1
    funext qualified
    simp [suffixes, String.append_assoc]

end TypeNames

namespace Unwraps

variable {k : Nat} {written last : List Char}

/-- Each call takes at least two characters off. -/
theorem length_le (h : Unwraps k written last) : last.length + 2 * k ≤ written.length := by
  induction h with
  | refl => simp
  | @call k written element last hcut _ ih =>
    have htrim := Text.length_trim_le written
    have hlength := Text.length_of_withoutSuffix? hcut
    simp only [List.length_cons, List.length_nil] at hlength
    omega

/-- The calls come to an end. -/
theorem exists_last (written : List Char) : ∃ k last, Unwraps k written last ∧
    Text.withoutSuffix? ['[', ']'] (Text.trim last) = none := by
  induction hn : written.length using Nat.strongRecOn generalizing written with
  | _ n ih =>
  cases hcut : Text.withoutSuffix? ['[', ']'] (Text.trim written) with
  | none => exact ⟨0, written, .refl, hcut⟩
  | some element =>
    have hlt := TypeNames.length_element_lt hcut
    obtain ⟨k, last, hcalls, hend⟩ := ih _ (hn ▸ hlt) element rfl
    exact ⟨k + 1, last, .call hcut hcalls, hend⟩

end Unwraps

/-- A written type is qualified as its name is, with the array suffixes that it has: type arguments
are dropped, whatever stands between their brackets, and so are blanks around any part. This ends on
every text: there are at most half as many calls one inside the other as there are characters, and
the innermost one, on a text that has no array suffix, asks for a name. -/
theorem TypeNames.qualify_typeText (names : TypeNames) :
    (∀ (name args : String) (k : Nat) (written : String), BaseName name → TypeArguments args →
      TypeText name args k written.toList →
      names.qualify written = (names.qualify name).map (· ++ suffixes k)) ∧
    ∀ written : String,
      (∀ k last, Unwraps k written.toList last → 2 * k ≤ written.length) ∧
      ∃ k last, Unwraps k written.toList last ∧
        Text.withoutSuffix? ['[', ']'] (Text.trim last) = none ∧
        names.qualify written = (names.qualifyName
          (Text.trimRight ((Text.trim last).takeWhile (· ≠ '<')))).map (· ++ suffixes k) := by
  refine ⟨fun name args k written hname hargs h => ?_, fun written => ⟨fun k last h => ?_, ?_⟩⟩
  · exact names.qualifyChars_typeText hname hargs h
  · have hlength := h.length_le
    rw [String.length_toList] at hlength
    omega
  · obtain ⟨k, last, hcalls, hend⟩ := Unwraps.exists_last written.toList
    refine ⟨k, last, hcalls, hend, ?_⟩
    rw [qualify, names.qualifyChars_unwraps hcalls, names.qualifyChars_of_no_array hend]

/-- A unit that imports a type. -/
def namingUnit : CompilationUnit where
  package := some "p"
  imports := ["q.Table"]

/-- Neither what is in the arguments nor the blanks between the suffixes count. -/
theorem TypeNames.qualify_typeText_namingUnit :
    BaseName "Table.Row" ∧ TypeArguments "< a.B[] , C<D[ ]> [] >" ∧
    TypeText "Table.Row" "< a.B[] , C<D[ ]> [] >" 2
      "\t Table.Row < a.B[] , C<D[ ]> [] >[] \n []  ".toList ∧
    (ofUnit namingUnit {}).qualify "\t Table.Row < a.B[] , C<D[ ]> [] >[] \n []  " =
      some "q.Table.Row[][]" := by
  have hname : BaseName "Table.Row" := ⟨by decide, by decide, by decide⟩
  have hargs : TypeArguments "< a.B[] , C<D[ ]> [] >" := .inr ⟨" a.B[] , C<D[ ]> [] ", by decide⟩
  have htext : TypeText "Table.Row" "< a.B[] , C<D[ ]> [] >" 2
      "\t Table.Row < a.B[] , C<D[ ]> [] >[] \n []  ".toList := by
    have blanks : ∀ {cs : List Char}, cs.all Text.isBlank = true → Text.Blanks cs :=
      fun h => List.all_eq_true.1 h
    have hparts : "\t Table.Row < a.B[] , C<D[ ]> [] >[] \n []  ".toList =
        (['\t', ' '] ++ "Table.Row".toList ++ [' ']) ++
          ([] ++ "< a.B[] , C<D[ ]> [] >".toList ++ []) ++
          ([] ++ ['[', ']'] ++ [' ', '\n', ' ']) ++ ([] ++ ['[', ']'] ++ [' ', ' ']) := by
      decide +kernel
    rw [hparts]
    refine .array (.array (.plain ?_ ?_) ?_) ?_
    all_goals exact .mk _ _ (blanks rfl) (blanks rfl)
  refine ⟨hname, hargs, htext, ?_⟩
  rw [(qualify_typeText (ofUnit namingUnit {})).1 _ _ _ _ hname hargs htext]
  decide +kernel

end HandleLint
