import HandleLint.Proofs.RuleSelection
import HandleLint.Proofs.WildcardImports
import HandleLint.Proofs.WrittenTypes
import Mathlib.Data.List.TakeWhile

/-!
# What written names stand for

A simple name may be that of a class of the unit, of an imported type, of a known type of a package
imported whole, and of a type of `java.lang`, all at once. The first of these that there is counts,
and of classes and imports the last one.

* `IsLast`: the last entry of a list that has a property;
* `StandsFor`: the type that a simple name stands for;
* `TypeNames.lookup?_ofUnit_eq_some_iff`: that type is the one that is looked up;
* `TypeNames.qualify_ofUnit_iff`: the type that a written name is qualified to.
-/

namespace HandleLint

/-! ## Last entries -/

/-- The last entry of a list that has a property. -/
def IsLast {α : Type} (P : α → Prop) (xs : List α) (x : α) : Prop :=
  ∃ before after, xs = before ++ x :: after ∧ P x ∧ ∀ y ∈ after, ¬ P y

section IsLast

variable {α β κ : Type}

/-- The last of the entries that a list is turned into comes from the last entry that is turned into
one with the property. -/
theorem isLast_filterMap {g : α → Option β} {P : β → Prop} {xs : List α} {y : β} :
    IsLast P (xs.filterMap g) y ↔
      ∃ x, IsLast (fun x => ∃ y ∈ [x].filterMap g, P y) xs x ∧ y ∈ [x].filterMap g := by
  have hentry : ∀ x y, y ∈ [x].filterMap g ↔ g x = some y := by simp
  simp only [hentry]
  constructor
  · rintro ⟨before, after, heq, hy, hafter⟩
    obtain ⟨before', rest, rfl, -, hrest⟩ := List.filterMap_eq_append_iff.1 heq
    obtain ⟨skipped, x, after', rfl, hskipped, hx, rfl⟩ := List.filterMap_eq_cons_iff.1 hrest
    refine ⟨x, ⟨before' ++ skipped, after', by simp, ⟨y, hx, hy⟩, ?_⟩, hx⟩
    rintro x' hx' ⟨y', hy', hP⟩
    exact hafter y' (List.mem_filterMap.2 ⟨x', hx', hy'⟩) hP
  · rintro ⟨x, ⟨before, after, rfl, ⟨y', hy', hP⟩, hafter⟩, hx⟩
    obtain rfl : y' = y := Option.some.inj (hy'.symm.trans hx)
    refine ⟨before.filterMap g, after.filterMap g, by simp [hx], hP, fun z hz hPz => ?_⟩
    obtain ⟨x', hx', hz⟩ := List.mem_filterMap.1 hz
    exact hafter x' hx' ⟨z, hz, hPz⟩

theorem isLast_map {g : α → β} {P : β → Prop} {xs : List α} {y : β} :
    IsLast P (xs.map g) y ↔ ∃ x, IsLast (fun x => P (g x)) xs x ∧ g x = y := by
  rw [← List.filterMap_eq_map, isLast_filterMap]
  simp [eq_comm]

variable [BEq κ] [LawfulBEq κ] {entries : List (κ × α)} {k : κ}

/-- In a list turned round, the last entry under a key is found. -/
theorem lookup_reverse_eq_some_iff_isLast {v : α} :
    entries.reverse.lookup k = some v ↔ IsLast (·.1 = k) entries (k, v) := by
  rw [List.lookup_eq_some_iff]
  constructor
  · rintro ⟨after, before, heq, hafter⟩
    refine ⟨before.reverse, after.reverse, by simpa using congrArg List.reverse heq, rfl, ?_⟩
    rintro e he rfl
    simpa using hafter e (List.mem_reverse.1 he)
  · rintro ⟨before, after, rfl, -, hafter⟩
    refine ⟨after.reverse, before.reverse, by simp, fun e he => ?_⟩
    have hne := hafter e (List.mem_reverse.1 he)
    simpa using Ne.symm hne

theorem lookup_reverse_eq_none_iff :
    entries.reverse.lookup k = none ↔ ∀ v, (k, v) ∉ entries := by
  rw [List.lookup_eq_none_iff]
  constructor
  · intro h v hv
    simpa using h (k, v) (List.mem_reverse.2 hv)
  · rintro h ⟨key, v⟩ he
    refine bne_iff_ne.2 fun hk => ?_
    subst hk
    exact h v (List.mem_reverse.1 he)

end IsLast

/-! ## Dots -/

namespace Text

variable {sep : Char} {cs before after : List Char}

theorem cutFirst?_eq_none_iff : cutFirst? sep cs = none ↔ sep ∉ cs := by
  rw [Option.eq_none_iff_forall_ne_some, Prod.forall]
  simp only [ne_eq, cutFirst?_eq_some_iff]
  constructor
  · intro h hsep
    obtain ⟨before, after, heq, hbefore⟩ := List.eq_append_cons_of_mem hsep
    exact h before after ⟨hbefore, heq⟩
  · rintro h before after ⟨-, rfl⟩
    exact h (by simp)

end Text

/-! ## Simple names -/

namespace ClassDecl

mutual

/-- A class and the classes inside it with their nesting paths, members before the class that holds
them. -/
def membersFirst (outer : List String) : ClassDecl → List (ClassDecl × List String)
  | c@⟨_, name, _, _, nested⟩ =>
    membersFirstOf (outer ++ [name]) nested ++ [(c, outer ++ [name])]

def membersFirstOf (outer : List String) : List ClassDecl → List (ClassDecl × List String)
  | [] => []
  | c :: cs => membersFirst outer c ++ membersFirstOf outer cs

end

end ClassDecl

/-- The classes of a unit with their nesting paths, in order, members before the class that holds
them. -/
def CompilationUnit.membersFirst (u : CompilationUnit) : List (ClassDecl × List String) :=
  ClassDecl.membersFirstOf u.package.toList u.classes

/-- An import of one type that has a simple name. -/
def ImportsType (k imported : String) : Prop :=
  (∀ package, imported ≠ package ++ ".*") ∧ ∃ package, imported = package ++ "." ++ k

/-- A package imported whole in which a type of a simple name is known. -/
def Holds (imports types : List String) (k package : String) : Prop :=
  package ++ ".*" ∈ imports ∧ package ++ "." ++ k ∈ types

/-- The only package imported whole in which a type of a simple name is known. -/
def OnlyHolder (imports types : List String) (k package : String) : Prop :=
  Holds imports types k package ∧ ∀ other, Holds imports types k other → other = package

/-- The type that a simple name stands for in a unit, where some types are known. -/
inductive StandsFor (u : CompilationUnit) (types : List String) (k : String) : String → Prop
  | declared {x : ClassDecl × List String} (last : IsLast (·.1.name = k) u.membersFirst x) :
    StandsFor u types k (dotted x.2)
  | imported {i : String} (undeclared : ∀ c ∈ u.allClasses, c.name ≠ k)
    (last : IsLast (ImportsType k) u.imports i) : StandsFor u types k i
  | held {package : String} (undeclared : ∀ c ∈ u.allClasses, c.name ≠ k)
    (unimported : ∀ i ∈ u.imports, ¬ ImportsType k i)
    (only : OnlyHolder u.imports types k package) : StandsFor u types k (package ++ "." ++ k)
  | lang (undeclared : ∀ c ∈ u.allClasses, c.name ≠ k)
    (unimported : ∀ i ∈ u.imports, ¬ ImportsType k i)
    (unheld : ∀ package, ¬ OnlyHolder u.imports types k package)
    (known : k ∈ TypeNames.langTypes) : StandsFor u types k ("java.lang." ++ k)

namespace TypeNames

mutual

theorem classEntriesOf_eq_map (outer : List String) : (c : ClassDecl) →
    classEntriesOf (outerName? outer) c =
      (c.membersFirst outer).map fun x => (x.1.name, dotted x.2)
  | ⟨_, name, _, _, nested⟩ => by
    rw [classEntriesOf, ClassDecl.membersFirst, within_outerName?, ← outerName?_concat,
      classEntries_eq_map (outer ++ [name]) nested, List.map_append, List.map_singleton]

theorem classEntries_eq_map (outer : List String) : (cs : List ClassDecl) →
    classEntries (outerName? outer) cs =
      (ClassDecl.membersFirstOf outer cs).map fun x => (x.1.name, dotted x.2)
  | [] => by
    rw [classEntries, ClassDecl.membersFirstOf, List.map_nil]
  | c :: cs => by
    rw [classEntries, ClassDecl.membersFirstOf, List.map_append, classEntriesOf_eq_map outer c,
      classEntries_eq_map outer cs]

end

variable {u : CompilationUnit} {imports types : List String} {k t : String}

theorem lookup_classEntries_eq_some_iff :
    (classEntries u.package u.classes).reverse.lookup k = some t ↔
      ∃ x, IsLast (·.1.name = k) u.membersFirst x ∧ dotted x.2 = t := by
  have hentries := classEntries_eq_map u.package.toList u.classes
  rw [outerName?_toList] at hentries
  rw [lookup_reverse_eq_some_iff_isLast, hentries, isLast_map]
  refine exists_congr fun x => and_congr_right fun hlast => ?_
  obtain ⟨_, _, _, hname, _⟩ := hlast
  rw [Prod.mk.injEq]
  exact and_iff_right hname

theorem lookup_classEntries_eq_none_iff :
    (classEntries u.package u.classes).reverse.lookup k = none ↔
      ∀ c ∈ u.allClasses, c.name ≠ k := by
  rw [lookup_reverse_eq_none_iff, ← u.map_fst_classPaths]
  simp only [CompilationUnit.mem_classEntries_iff, List.mem_map]
  constructor
  · rintro h _ ⟨x, hx, rfl⟩ rfl
    exact h _ ⟨x, hx, rfl⟩
  · rintro h v ⟨x, hx, heq⟩
    exact h x.1 ⟨x, hx, rfl⟩ (congrArg Prod.fst heq).symm

theorem mem_importEntries_iff_importsType :
    (k, t) ∈ importEntries imports ↔ t ∈ imports ∧ '.' ∉ k.toList ∧ ImportsType k t := by
  rw [mem_importEntries_iff, ImportsType, Option.eq_none_iff_forall_ne_some]
  simp only [ne_eq, importedPackage?_eq_some_iff, Text.splitQualified?_eq_some_iff,
    exists_and_left]
  exact and_congr_right fun _ => and_left_comm

theorem lookup_importEntries_eq_some_iff_isLast (hk : '.' ∉ k.toList) :
    (importEntries imports).reverse.lookup k = some t ↔ IsLast (ImportsType k) imports t := by
  have hentry : ∀ i, (∃ e ∈ importEntries [i], e.1 = k) ↔ ImportsType k i := by
    intro i
    simp [Prod.exists, mem_importEntries_iff_importsType, hk]
  rw [lookup_reverse_eq_some_iff_isLast, importEntries, isLast_filterMap]
  show (∃ i, IsLast (fun i => ∃ e ∈ importEntries [i], e.1 = k) imports i ∧
    (k, t) ∈ importEntries [i]) ↔ _
  simp only [hentry, mem_importEntries_iff_importsType, List.mem_singleton]
  constructor
  · rintro ⟨_, hlast, rfl, -⟩
    exact hlast
  · intro hlast
    obtain ⟨_, _, _, himports, _⟩ := id hlast
    exact ⟨t, hlast, rfl, hk, himports⟩

theorem lookup_importEntries_eq_none_iff (hk : '.' ∉ k.toList) :
    (importEntries imports).reverse.lookup k = none ↔ ∀ i ∈ imports, ¬ ImportsType k i := by
  rw [lookup_reverse_eq_none_iff]
  simp [mem_importEntries_iff_importsType, hk]

theorem held_iff_holds (hk : '.' ∉ k.toList) :
    Held imports types k t ↔
      ∃ package, Holds imports types k package ∧ t = package ++ "." ++ k := by
  simp only [Held, Text.splitQualified?_eq_some_iff, List.mem_filterMap,
    importedPackage?_eq_some_iff, exists_eq_right, hk, not_false_eq_true, true_and]
  constructor
  · rintro ⟨ht, package, rfl, hp⟩
    exact ⟨package, ⟨hp, ht⟩, rfl⟩
  · rintro ⟨package, ⟨hp, ht⟩, rfl⟩
    exact ⟨ht, package, rfl, hp⟩

/-- Packages that hold types of one simple name and one qualified name are the same. -/
theorem package_inj {package other : String} (h : package ++ "." ++ k = other ++ "." ++ k) :
    package = other := by
  have hchars := congrArg String.toList h
  simpa [String.toList_inj] using hchars

theorem lookup_onDemandEntries_eq_some_iff_onlyHolder (hk : '.' ∉ k.toList) :
    (onDemandEntries imports types).reverse.lookup k = some t ↔
      ∃ package, OnlyHolder imports types k package ∧ package ++ "." ++ k = t := by
  simp only [lookup_onDemandEntries_eq_some_iff, held_iff_holds hk]
  constructor
  · intro h
    obtain ⟨package, hp, rfl⟩ := (h t).2 rfl
    exact ⟨package, ⟨hp, fun other ho => package_inj ((h _).1 ⟨other, ho, rfl⟩)⟩, rfl⟩
  · rintro ⟨package, ⟨hp, honly⟩, rfl⟩ t'
    constructor
    · rintro ⟨other, ho, rfl⟩
      rw [honly other ho]
    · rintro rfl
      exact ⟨package, hp, rfl⟩

theorem lookup_langEntries_eq_some_iff :
    langEntries.reverse.lookup k = some t ↔ k ∈ langTypes ∧ "java.lang." ++ k = t := by
  have hmem : ∀ t, (k, t) ∈ langEntries ↔ k ∈ langTypes ∧ "java.lang." ++ k = t := by
    intro t
    simp only [langEntries, List.mem_map, Prod.mk.injEq]
    constructor
    · rintro ⟨_, hname, rfl, rfl⟩
      exact ⟨hname, rfl⟩
    · rintro ⟨hname, rfl⟩
      exact ⟨k, hname, rfl, rfl⟩
  rw [lookup_reverse_eq_some_iff fun a b ha hb =>
    ((hmem a).1 ha).2.symm.trans ((hmem b).1 hb).2]
  exact hmem t

/-- What a simple name stands for is what is looked up under it. -/
theorem lookup?_ofUnit_eq_some_iff {s : Signatures} (hk : '.' ∉ k.toList) :
    (ofUnit u s).lookup? k = some t ↔ StandsFor u s.types k t := by
  have hunheld : (onDemandEntries u.imports s.types).reverse.lookup k = none ↔
      ∀ package, ¬ OnlyHolder u.imports s.types k package := by
    rw [Option.eq_none_iff_forall_ne_some]
    simp only [ne_eq, lookup_onDemandEntries_eq_some_iff_onlyHolder hk]
    exact ⟨fun h package hp => h _ ⟨package, hp, rfl⟩, fun h _ ⟨package, hp, _⟩ => h package hp⟩
  rw [lookup?_ofUnit]
  simp only [Option.or_eq_some_iff, lookup_classEntries_eq_some_iff,
    lookup_classEntries_eq_none_iff, lookup_importEntries_eq_some_iff_isLast hk,
    lookup_importEntries_eq_none_iff hk,
    lookup_onDemandEntries_eq_some_iff_onlyHolder hk, hunheld,
    lookup_langEntries_eq_some_iff]
  constructor
  · rintro (⟨x, hlast, rfl⟩ | ⟨hclass, hlast | ⟨himport, ⟨package, honly, rfl⟩ |
      ⟨hheld, hlang, rfl⟩⟩⟩)
    · exact .declared hlast
    · exact .imported hclass hlast
    · exact .held hclass himport honly
    · exact .lang hclass himport hheld hlang
  · intro h
    cases h with
    | declared hlast => exact .inl ⟨_, hlast, rfl⟩
    | imported hclass hlast => exact .inr ⟨hclass, .inl hlast⟩
    | held hclass himport honly => exact .inr ⟨hclass, .inr ⟨himport, .inl ⟨_, honly, rfl⟩⟩⟩
    | lang hclass himport hheld hlang =>
      exact .inr ⟨hclass, .inr ⟨himport, .inr ⟨hheld, hlang, rfl⟩⟩⟩

/-- Nothing is known under a name with dots, if the names of classes have none. -/
theorem lookup?_ofUnit_eq_none {s : Signatures}
    (segments : ∀ c ∈ u.allClasses, '.' ∉ c.name.toList) (hk : '.' ∈ k.toList) :
    (ofUnit u s).lookup? k = none := by
  rw [lookup?_ofUnit]
  simp only [Option.or_eq_none_iff]
  rw [lookup_classEntries_eq_none_iff]
  simp only [lookup_reverse_eq_none_iff]
  refine ⟨?_, fun t ht => ?_, fun t ht => ?_, fun t ht => ?_⟩
  · rintro c hc rfl
    exact segments c hc hk
  · exact (mem_importEntries_iff_importsType.1 ht).2.1 hk
  · obtain ⟨-, package, hsplit, -⟩ := (mem_onDemandEntries_iff.1 ht t).2 rfl
    exact (Text.splitQualified?_eq_some_iff.1 hsplit).1 hk
  · obtain ⟨name, hname, heq⟩ := List.mem_map.1 ht
    have hlang : ∀ name ∈ langTypes, '.' ∉ name.toList := by decide
    obtain ⟨rfl, -⟩ := Prod.mk.inj heq
    exact hlang name hname hk

end TypeNames

/-! ## Written names -/

/-- A name as it is written where nothing is cut off and nothing is built in. -/
structure PlainName (name : String) : Prop where
  nonempty : name ≠ ""
  not_var : name ≠ "var"
  not_primitive : name ∉ TypeNames.primitives
  no_arguments : '<' ∉ name.toList
  no_array : ¬ ['[', ']'] <:+ name.toList
  first : ∀ c ∈ name.toList.head?, Text.isBlank c = false
  last : ∀ c ∈ name.toList.getLast?, Text.isBlank c = false

namespace PlainName

variable {name head rest : String}

theorem of_chars (nonempty : name ≠ "") (not_var : name ≠ "var")
    (not_primitive : name ∉ TypeNames.primitives)
    (chars : name.toList.all (fun c => c ≠ '<' ∧ c ≠ ']' ∧ Text.isBlank c = false) = true) :
    PlainName name := by
  have hchars : ∀ c ∈ name.toList, c ≠ '<' ∧ c ≠ ']' ∧ Text.isBlank c = false :=
    fun c hc => of_decide_eq_true (List.all_eq_true.1 chars c hc)
  exact {
    nonempty, not_var, not_primitive
    no_arguments := fun hc => (hchars _ hc).1 rfl
    no_array := fun harray => (hchars ']' (harray.subset (by simp))).2.1 rfl
    first := fun c hc => (hchars c (List.mem_of_mem_head? hc)).2.2
    last := fun c hc => (hchars c (List.mem_of_mem_getLast? hc)).2.2 }

variable (h : PlainName name) (names : TypeNames)
include h

theorem baseName : BaseName name where
  trimmed := Text.trim_eq_self h.first h.last
  no_arguments := h.no_arguments
  no_array := h.no_array

theorem qualify_simple (hdot : '.' ∉ name.toList) : names.qualify name = names.lookup? name := by
  rw [h.baseName.qualify_eq, TypeNames.qualifyName]
  simp only [String.ofList_toList, h.nonempty, h.not_var, h.not_primitive, or_self, if_false,
    Text.cutFirst?_eq_none_iff.2 hdot]
  cases names.lookup? name <;> rfl

omit h in
theorem qualify_dotted (h : PlainName (head ++ "." ++ rest)) (hdot : '.' ∉ head.toList)
    (hnone : names.lookup? (head ++ "." ++ rest) = none) :
    names.qualify (head ++ "." ++ rest) =
      some (((names.lookup? head).map (· ++ "." ++ rest)).getD (head ++ "." ++ rest)) := by
  have hcut : Text.cutFirst? '.' (head ++ "." ++ rest).toList = some (head.toList, rest.toList) :=
    Text.cutFirst?_eq_some_iff.2 ⟨hdot, by simp⟩
  rw [h.baseName.qualify_eq, TypeNames.qualifyName]
  simp only [String.ofList_toList, h.nonempty, h.not_var, h.not_primitive, or_self, if_false,
    hnone, hcut]
  cases names.lookup? head <;> rfl

end PlainName

/-- A name without dots is qualified to the type that it stands for, and to nothing if there is
none. A name with dots is qualified by what its first segment stands for, and is left as it is if
that stands for nothing. -/
theorem TypeNames.qualify_ofUnit_iff (u : CompilationUnit) (s : Signatures)
    (segments : ∀ c ∈ u.allClasses, '.' ∉ c.name.toList) (name : String) (plain : PlainName name) :
    ('.' ∉ name.toList → ∀ t, (ofUnit u s).qualify name = some t ↔ StandsFor u s.types name t) ∧
    ∀ head rest, '.' ∉ head.toList → name = head ++ "." ++ rest →
      ∀ t, (ofUnit u s).qualify name = some t ↔
        (∃ outer, StandsFor u s.types head outer ∧ t = outer ++ "." ++ rest) ∨
        (∀ outer, ¬ StandsFor u s.types head outer) ∧ t = name := by
  refine ⟨fun hdot t => ?_, ?_⟩
  · rw [plain.qualify_simple _ hdot, lookup?_ofUnit_eq_some_iff hdot]
  · rintro head rest hdot rfl t
    rw [plain.qualify_dotted _ hdot (lookup?_ofUnit_eq_none segments (by simp)), Option.some_inj]
    have hstands : ∀ {outer}, (ofUnit u s).lookup? head = some outer ↔
        StandsFor u s.types head outer := lookup?_ofUnit_eq_some_iff hdot
    simp only [← hstands]
    cases (ofUnit u s).lookup? head with
    | none => simp [eq_comm]
    | some outer => simp [eq_comm]

/-- Two classes with a member class `Line` each, a type `Reader` of two packages, and two packages
imported whole. -/
def readingUnit : CompilationUnit where
  package := some "p"
  imports := ["q.Reader", "a.*", "b.*", "r.Reader"]
  classes := [
    { site := ⟨1, {}⟩, name := "A", fields := [], methods := [],
      nested := [{ site := ⟨2, {}⟩, name := "Line", fields := [], methods := [], nested := [] }] },
    { site := ⟨3, {}⟩, name := "B", fields := [], methods := [],
      nested := [{ site := ⟨4, {}⟩, name := "Line", fields := [], methods := [], nested := [] }] }]

/-- Both packages hold a type `Handle`, and one of them a type `Pool`. -/
def readingSignatures : Signatures :=
  .ofList [⟨"a.Pool", "get", "a.Handle"⟩, ⟨"b.Handle", "close", "void"⟩]

theorem TypeNames.qualify_ofUnit_iff_readingUnit :
    StandsFor readingUnit readingSignatures.types "Line" "p.B.Line" ∧
    StandsFor readingUnit readingSignatures.types "Reader" "r.Reader" ∧
    StandsFor readingUnit readingSignatures.types "Pool" "a.Pool" ∧
    StandsFor readingUnit readingSignatures.types "Object" "java.lang.Object" ∧
    (∀ t, ¬ StandsFor readingUnit readingSignatures.types "Handle" t) ∧
    (ofUnit readingUnit readingSignatures).qualify "Handle.State" = some "Handle.State" := by
  have h := qualify_ofUnit_iff readingUnit readingSignatures (by decide)
  have hplain : ∀ name ∈ ["Line", "Reader", "Pool", "Object", "Handle", "Handle.State"],
      PlainName name := by
    simp only [List.forall_mem_cons]
    refine ⟨?_, ?_, ?_, ?_, ?_, ?_, nofun⟩
    all_goals exact .of_chars (by decide) (by decide) (by decide) (by decide)
  replace h := fun name hm => h name (hplain name hm)
  have hhandle : ∀ t, ¬ StandsFor readingUnit readingSignatures.types "Handle" t := by
    intro t ht
    have hqualify := ((h "Handle" (by decide)).1 (by decide) t).2 ht
    have hnone : (ofUnit readingUnit readingSignatures).qualify "Handle" = none := by
      decide +kernel
    rw [hnone] at hqualify
    cases hqualify
  refine ⟨?_, ?_, ?_, ?_, hhandle, ?_⟩
  · exact ((h "Line" (by decide)).1 (by decide) _).1 (by decide +kernel)
  · exact ((h "Reader" (by decide)).1 (by decide) _).1 (by decide +kernel)
  · exact ((h "Pool" (by decide)).1 (by decide) _).1 (by decide +kernel)
  · exact ((h "Object" (by decide)).1 (by decide) _).1 (by decide +kernel)
  · have hdotted := (h "Handle.State" (by decide)).2 "Handle" "State" (by decide) (by decide)
    exact (hdotted _).2 (.inr ⟨hhandle, rfl⟩)

/-- A unit that imports a name without dots. -/
def dotlessUnit : CompilationUnit where
  package := none
  imports := ["Foo"]
  classes := []

/-- The last segment of an import without dots is all of it, and stands for nothing. -/
theorem TypeNames.qualify_dotlessUnit :
    Text.simpleName "Foo" = "Foo" ∧ importedPackage? "Foo" = none ∧ PlainName "Foo" ∧
      (ofUnit dotlessUnit {}).qualify "Foo" = none := by
  refine ⟨by decide, by decide, .of_chars ?_ ?_ ?_ ?_, by decide +kernel⟩ <;> decide

end HandleLint
