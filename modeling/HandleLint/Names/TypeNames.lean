import HandleLint.Names.Signatures
import HandleLint.Table
import HandleLint.Text.Blank
import HandleLint.Text.Cut

/-!
# Type names

The qualified names that types written in a unit stand for. A simple name is known, the later
entries winning over the earlier ones, as

* a type of `java.lang` (`langEntries`);
* a known type of a package that is imported whole, if there is exactly one such type of that name
  (`onDemandEntries`);
* a type that is imported by itself (`importEntries`);
* a class of the unit (`classEntries`).

`TypeNames.qualify` qualifies a written type: it drops type arguments and keeps array suffixes.
-/

namespace HandleLint

/-- Simple names and what they stand for. -/
structure TypeNames where
  known : Table String String := {}

namespace TypeNames

def primitives : List String :=
  ["boolean", "byte", "char", "short", "int", "long", "float", "double"]

def langTypes : List String :=
  ["AutoCloseable", "Boolean", "Exception", "Integer", "Iterable", "Long", "Object",
    "RuntimeException", "String", "Throwable"]

/-! ## Entries -/

def langEntries : List (String × String) :=
  langTypes.map fun name => (name, "java.lang." ++ name)

/-- The package that an import names as a whole. -/
def importedPackage? (imported : String) : Option String :=
  (Text.withoutSuffix? ['.', '*'] imported.toList).map String.ofList

/-- What a simple name stands for when one more type of that name is met. Nothing is left of it when
it was another type before. -/
def meet (type : String) : Option (Option String) → Option String
  | none => some type
  | some seen => if seen = some type then seen else none

/-- Goes on to a known type, which counts if its package is among those given. -/
def findType (packages : List String) (found : Table String (Option String)) (type : String) :
    Table String (Option String) :=
  match Text.splitQualified? type with
  | none => found
  | some (package, simple) =>
    if package ∈ packages then found.insert simple (meet type (found.get? simple)) else found

/-- Of the known types of packages imported whole, those with a simple name of their own. -/
def onDemandEntries (imports types : List String) : List (String × String) :=
  let packages := imports.filterMap importedPackage?
  if packages.isEmpty then []
  else
    let found := types.foldl (findType packages) {}
    found.toList.filterMap fun (simple, type) => type.map (simple, ·)

/-- The types imported by themselves. -/
def importEntries (imports : List String) : List (String × String) :=
  imports.filterMap fun imported =>
    match importedPackage? imported, Text.splitQualified? imported with
    | none, some (_, simple) => some (simple, imported)
    | _, _ => none

/-- A name inside a package or a class. -/
def within (outer : Option String) (name : String) : String :=
  match outer with
  | some outer => outer ++ "." ++ name
  | none => name

mutual

/-- A class and its member classes, the members first. -/
def classEntriesOf (outer : Option String) : ClassDecl → List (String × String)
  | ⟨_, name, _, _, nested⟩ =>
    classEntries (some (within outer name)) nested ++ [(name, within outer name)]

def classEntries (outer : Option String) : List ClassDecl → List (String × String)
  | [] => []
  | c :: cs => classEntriesOf outer c ++ classEntries outer cs

end

/-- All entries of a unit, those that win last. -/
def entries (u : CompilationUnit) (s : Signatures) : List (String × String) :=
  langEntries ++ onDemandEntries u.imports s.types ++ importEntries u.imports ++
    classEntries u.package u.classes

def ofUnit (u : CompilationUnit) (s : Signatures) : TypeNames :=
  { known := (entries u s).foldl (fun t entry => t.insert entry.1 entry.2) {} }

/-! ## Qualifying -/

/-- What a simple name stands for. -/
def lookup? (names : TypeNames) (simple : String) : Option String :=
  names.known.get? simple

/-- Qualifies a name without type arguments or array suffixes. A name with dots whose first segment
is not known is taken to be qualified already. -/
def qualifyName (names : TypeNames) (name : List Char) : Option String :=
  let written := String.ofList name
  if written = "" ∨ written = "var" then none
  else if written ∈ primitives then some written
  else
    match names.lookup? written with
    | some qualified => some qualified
    | none =>
      match Text.cutFirst? '.' name with
      | none => none
      | some (head, rest) =>
        match names.lookup? (String.ofList head) with
        | some outer => some (outer ++ "." ++ String.ofList rest)
        | none => some written

theorem length_element_lt {written element : List Char}
    (h : Text.withoutSuffix? ['[', ']'] (Text.trim written) = some element) :
    element.length < written.length := by
  have hcut := Text.length_of_withoutSuffix? h
  have htrim := Text.length_trim_le written
  simp only [List.length_cons, List.length_nil] at hcut
  omega

/-- Qualifies a written type, given by its characters. -/
def qualifyChars (names : TypeNames) (written : List Char) : Option String :=
  match h : Text.withoutSuffix? ['[', ']'] (Text.trim written) with
  | some element =>
    have := length_element_lt h
    (names.qualifyChars element).map (· ++ "[]")
  | none => names.qualifyName (Text.trimRight ((Text.trim written).takeWhile (· ≠ '<')))
  termination_by written.length

/-- The qualified name that a written type stands for. -/
def qualify (names : TypeNames) (written : String) : Option String :=
  names.qualifyChars written.toList

end TypeNames

end HandleLint
