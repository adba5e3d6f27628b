/-!
# Cutting text

Cuts at a separating character, at the end of a text, and at byte offsets:

* `cutFirst?`, `cutLast?`: what stands before and after the first or last separator;
* `withoutPrefix?`, `withoutSuffix?`: a text less its beginning or ending;
* `sliceBytes?`: the text between two offsets, counted in bytes of UTF-8;
* `replaceAll`: every occurrence of a pattern replaced;
* `padLeft`, `padRight`: text filled with spaces to a width.
-/

namespace HandleLint.Text

/-! ## Separators and endings -/

/-- What stands before and after the first separator. -/
def cutFirst? (sep : Char) : List Char → Option (List Char × List Char)
  | [] => none
  | c :: cs =>
    if c = sep then some ([], cs)
    else (cutFirst? sep cs).map fun (before, after) => (c :: before, after)

/-- What stands before and after the last separator. -/
def cutLast? (sep : Char) : List Char → Option (List Char × List Char)
  | [] => none
  | c :: cs =>
    match cutLast? sep cs with
    | some (before, after) => some (c :: before, after)
    | none => if c = sep then some ([], cs) else none

/-- The text after a beginning, if it begins so. -/
def withoutPrefix? : List Char → List Char → Option (List Char)
  | [], cs => some cs
  | _ :: _, [] => none
  | p :: ps, c :: cs => if p = c then withoutPrefix? ps cs else none

/-- The text up to an ending, if it ends so. -/
def withoutSuffix? (ending cs : List Char) : Option (List Char) :=
  (withoutPrefix? ending.reverse cs.reverse).map List.reverse

theorem withoutPrefix?_eq_some_iff {beginning cs rest : List Char} :
    withoutPrefix? beginning cs = some rest ↔ cs = beginning ++ rest := by
  induction beginning generalizing cs with
  | nil => simp [withoutPrefix?, eq_comm]
  | cons p ps ih =>
    cases cs with
    | nil => simp [withoutPrefix?]
    | cons c cs => by_cases h : p = c <;> simp [withoutPrefix?, h, ih, eq_comm]

theorem withoutSuffix?_eq_some_iff {ending cs rest : List Char} :
    withoutSuffix? ending cs = some rest ↔ cs = rest ++ ending := by
  simp only [withoutSuffix?, Option.map_eq_some_iff, withoutPrefix?_eq_some_iff]
  constructor
  · rintro ⟨r, h, rfl⟩
    simpa using congrArg List.reverse h
  · rintro rfl
    exact ⟨rest.reverse, by simp, by simp⟩

theorem length_of_withoutSuffix? {ending cs rest : List Char}
    (h : withoutSuffix? ending cs = some rest) : cs.length = rest.length + ending.length := by
  rw [withoutSuffix?_eq_some_iff.1 h, List.length_append]

/-- The package and the simple name of a qualified name: what stands around its last dot. -/
def splitQualified? (name : String) : Option (String × String) :=
  (cutLast? '.' name.toList).map fun (package, simple) =>
    (String.ofList package, String.ofList simple)

/-- The last segment of a qualified name. -/
def simpleName (name : String) : String :=
  match splitQualified? name with
  | some (_, simple) => simple
  | none => name

/-! ## Byte offsets -/

/-- What is left after `n` bytes; nothing if that is past the end or inside a character. -/
def dropBytes? : Nat → List Char → Option (List Char)
  | 0, cs => some cs
  | _ + 1, [] => none
  | n + 1, c :: cs => if c.utf8Size ≤ n + 1 then dropBytes? (n + 1 - c.utf8Size) cs else none
  termination_by structural _ cs => cs

/-- The first `n` bytes; nothing if that is past the end or inside a character. -/
def takeBytes? : Nat → List Char → Option (List Char)
  | 0, _ => some []
  | _ + 1, [] => none
  | n + 1, c :: cs =>
    if c.utf8Size ≤ n + 1 then (takeBytes? (n + 1 - c.utf8Size) cs).map (c :: ·) else none
  termination_by structural _ cs => cs

/-- The text between two byte offsets, both of which must stand between characters. -/
def sliceBytes? (start stop : Nat) (cs : List Char) : Option (List Char) :=
  if start ≤ stop then dropBytes? start cs >>= takeBytes? (stop - start) else none

/-! ## Replacing and filling -/

/-- Replaces occurrences of a pattern from left to right, after `skip` characters of the
occurrence replaced last. -/
def replaceFrom (pattern new : List Char) : Nat → List Char → List Char
  | _, [] => []
  | skip + 1, _ :: cs => replaceFrom pattern new skip cs
  | 0, c :: cs =>
    if pattern.isPrefixOf (c :: cs) then new ++ replaceFrom pattern new (pattern.length - 1) cs
    else c :: replaceFrom pattern new 0 cs
  termination_by structural _ cs => cs

/-- Every occurrence of a pattern, which is not empty, replaced. -/
def replaceAll (pattern new text : String) : String :=
  String.ofList (replaceFrom pattern.toList new.toList 0 text.toList)

/-- Filled with spaces on the right up to a width. -/
def padRight (width : Nat) (text : String) : String :=
  text ++ String.ofList (List.replicate (width - text.length) ' ')

/-- Filled with spaces on the left up to a width. -/
def padLeft (width : Nat) (text : String) : String :=
  String.ofList (List.replicate (width - text.length) ' ') ++ text

end HandleLint.Text
