import HandleLint.Proofs.NameResolution

/-!
# The names of classes

Classes are known by their simple names: what a class is called in full is looked up under its
simple name, where the class that was entered last has taken the place of those before it. So a
class carries its own nesting path if no class of the same simple name has another one.

* `CompilationUnit.classPaths`: the classes of a unit with their nesting paths;
* `SymbolTable.classSymbols`: the symbols of classes;
* `Table.get?_foldl_insert`: of the entries made under a key, the last one counts;
* `labels_classSymbols_resolve`: the symbols that classes get;
* `classSymbols_own_paths_iff`: when every class carries its own nesting path.
-/

namespace HandleLint

open HandleLint.Resolver (Step)

/-! ## Nesting paths -/

namespace ClassDecl

mutual

/-- A class and the classes inside it, in the order of `withNested`, each with the names that lead
to it: those around it, then its own. -/
def paths (outer : List String) : ClassDecl → List (ClassDecl × List String)
  | c@⟨_, name, _, _, nested⟩ => (c, outer ++ [name]) :: pathsOf (outer ++ [name]) nested

def pathsOf (outer : List String) : List ClassDecl → List (ClassDecl × List String)
  | [] => []
  | c :: cs => paths outer c ++ pathsOf outer cs

end

mutual

theorem map_fst_paths (outer : List String) : (c : ClassDecl) →
    (c.paths outer).map Prod.fst = c.withNested
  | ⟨_, name, _, _, nested⟩ => by
    rw [paths, withNested, List.map_cons, map_fst_pathsOf (outer ++ [name]) nested]

theorem map_fst_pathsOf (outer : List String) : (cs : List ClassDecl) →
    (pathsOf outer cs).map Prod.fst = withNestedAll cs
  | [] => by
    rw [pathsOf, withNestedAll, List.map_nil]
  | c :: cs => by
    rw [pathsOf, withNestedAll, List.map_append, map_fst_paths outer c, map_fst_pathsOf outer cs]

end

end ClassDecl

/-- The classes of a unit with their nesting paths: the package, the classes around, the class. -/
def CompilationUnit.classPaths (u : CompilationUnit) : List (ClassDecl × List String) :=
  ClassDecl.pathsOf u.package.toList u.classes

theorem CompilationUnit.map_fst_classPaths (u : CompilationUnit) :
    u.classPaths.map Prod.fst = u.allClasses :=
  ClassDecl.map_fst_pathsOf _ u.classes

/-- A path as one name. -/
def dotted (path : List String) : String :=
  ".".intercalate path

/-! ## Entries of classes -/

namespace Table

variable {κ α : Type} [BEq κ] [LawfulBEq κ] [Ord κ] [Std.TransOrd κ]
  [Std.LawfulEqOrd κ]

/-- Of the entries made under a key one after the other, the last one counts. -/
theorem get?_foldl_insert (entries : List (κ × α)) (t : Table κ α) (k : κ) :
    (entries.foldl (fun t entry => t.insert entry.1 entry.2) t).get? k =
      (entries.reverse.lookup k).or (t.get? k) := by
  induction entries generalizing t with
  | nil => rfl
  | cons entry rest ih =>
    rw [List.foldl_cons, ih, get?_insert, List.reverse_cons, List.lookup_append, Option.or_assoc]
    congr 1
    obtain ⟨key, value⟩ := entry
    by_cases h : k == key <;> simp [List.lookup_cons, h]

end Table

namespace TypeNames

/-- The name of what stands around a class with a path. -/
def outerName? (outer : List String) : Option String :=
  if outer = [] then none else some (dotted outer)

theorem outerName?_concat (outer : List String) (name : String) :
    outerName? (outer ++ [name]) = some (dotted (outer ++ [name])) :=
  if_neg (by simp)

theorem within_outerName? (outer : List String) (name : String) :
    within (outerName? outer) name = dotted (outer ++ [name]) := by
  unfold outerName?
  by_cases h : outer = []
  · simp [h, within, dotted]
  · simp [h, within, dotted, String.intercalate_append_of_ne_nil h]

theorem outerName?_toList (package : Option String) : outerName? package.toList = package := by
  cases package <;> simp [outerName?, dotted]

mutual

/-- A class is entered under its simple name with its nesting path. -/
theorem mem_classEntriesOf_iff {entry : String × String} (outer : List String) : (c : ClassDecl) →
    (entry ∈ classEntriesOf (outerName? outer) c ↔
      ∃ x ∈ c.paths outer, entry = (x.1.name, dotted x.2))
  | ⟨_, name, _, _, nested⟩ => by
    rw [classEntriesOf, ClassDecl.paths, within_outerName?, ← outerName?_concat, List.mem_append,
      mem_classEntries_iff (outer ++ [name]) nested, List.mem_singleton]
    simp only [List.mem_cons, exists_eq_or_imp]
    exact or_comm

theorem mem_classEntries_iff {entry : String × String} (outer : List String) :
    (cs : List ClassDecl) → (entry ∈ classEntries (outerName? outer) cs ↔
      ∃ x ∈ ClassDecl.pathsOf outer cs, entry = (x.1.name, dotted x.2))
  | [] => by
    simp [classEntries, ClassDecl.pathsOf]
  | c :: cs => by
    rw [classEntries, ClassDecl.pathsOf, List.mem_append, mem_classEntriesOf_iff outer c,
      mem_classEntries_iff outer cs]
    simp only [List.mem_append, or_and_right, exists_or]

end

end TypeNames

/-- What is entered last under the simple name of a class. -/
def CompilationUnit.enteredName? (u : CompilationUnit) (simple : String) : Option String :=
  (TypeNames.classEntries u.package u.classes).reverse.lookup simple

namespace CompilationUnit

variable {u : CompilationUnit}

theorem mem_classEntries_iff {entry : String × String} :
    entry ∈ TypeNames.classEntries u.package u.classes ↔
      ∃ x ∈ u.classPaths, entry = (x.1.name, dotted x.2) := by
  have h := @TypeNames.mem_classEntries_iff entry u.package.toList u.classes
  rw [TypeNames.outerName?_toList] at h
  exact h

/-- The name entered for a class is the path of a class that has its simple name. -/
theorem exists_enteredName? {x : ClassDecl × List String} (hx : x ∈ u.classPaths) :
    ∃ y ∈ u.classPaths, y.1.name = x.1.name ∧ u.enteredName? x.1.name = some (dotted y.2) := by
  cases hl : u.enteredName? x.1.name with
  | none =>
    have hmem := List.mem_reverse.2 (mem_classEntries_iff.2 ⟨x, hx, rfl⟩)
    simpa using List.lookup_eq_none_iff.1 hl _ hmem
  | some full =>
    obtain ⟨before, after, hsplit, -⟩ := List.lookup_eq_some_iff.1 hl
    have hmem : (x.1.name, full) ∈ (TypeNames.classEntries u.package u.classes).reverse := by
      rw [hsplit]
      simp
    obtain ⟨y, hy, he⟩ := mem_classEntries_iff.1 (List.mem_reverse.1 hmem)
    obtain ⟨hname, hfull⟩ := Prod.mk.inj he
    exact ⟨y, hy, hname.symm, congrArg some hfull⟩

/-- For the simple name of a class, the entries of classes come after all others. -/
theorem lookup?_ofUnit (signatures : Signatures) {x : ClassDecl × List String}
    (hx : x ∈ u.classPaths) :
    (TypeNames.ofUnit u signatures).lookup? x.1.name = u.enteredName? x.1.name := by
  obtain ⟨y, -, -, he⟩ := exists_enteredName? hx
  have hlast := he
  rw [enteredName?] at hlast
  rw [TypeNames.lookup?, TypeNames.ofUnit, TypeNames.entries, Table.get?_foldl_insert,
    List.reverse_append, List.lookup_append, hlast, he]
  rfl

end CompilationUnit

/-! ## The symbols of classes -/

namespace SymbolTable

/-- The symbols of classes, in the order in which they were declared. -/
def classSymbols (t : SymbolTable) : List Symbol :=
  t.toList.filter (·.kind = .type)

variable {t : SymbolTable} {name : String} {kind : SymbolKind} {type : Option String} {site : Site}

theorem classSymbols_insert_of_ne (h : kind ≠ .type) :
    (t.insert name kind type site).classSymbols = t.classSymbols := by
  simp [classSymbols, insert, toList, h]

theorem classSymbols_insert_type :
    (t.insert name .type type site).classSymbols =
      t.classSymbols ++ [{ id := t.next, name, kind := .type, type, site }] := by
  simp [classSymbols, insert, toList]

end SymbolTable

/-- What a symbol says of its declaration, less its kind. -/
def Symbol.label (s : Symbol) : String × Site × Option String :=
  (s.name, s.site, s.type)

namespace Resolver

variable (voc : Vocabulary)

theorem classSymbols_foldl {α : Type} {f : Resolver → α → Resolver}
    (h : ∀ r a, (f r a).symbols.classSymbols = r.symbols.classSymbols) (r : Resolver)
    (as : List α) : (as.foldl f r).symbols.classSymbols = r.symbols.classSymbols := by
  induction as generalizing r with
  | nil => rfl
  | cons a rest ih => rw [List.foldl_cons, ih, h]

theorem labels_declareClass (r : Resolver) (c : ClassDecl) :
    (declareClass voc r c).symbols.classSymbols.map Symbol.label =
      r.symbols.classSymbols.map Symbol.label ++ [(c.name, c.site, voc.types.lookup? c.name)] := by
  have hfield : ∀ (r : Resolver) v,
      (declareField voc c.id r v).symbols.classSymbols = r.symbols.classSymbols :=
    fun _ _ => SymbolTable.classSymbols_insert_of_ne nofun
  have hmethod : ∀ (r : Resolver) m,
      (declareMethod voc c.id r m).symbols.classSymbols = r.symbols.classSymbols :=
    fun _ _ => SymbolTable.classSymbols_insert_of_ne nofun
  simp only [declareClass]
  rw [classSymbols_foldl hmethod, classSymbols_foldl hfield, addSymbol,
    SymbolTable.classSymbols_insert_type, List.map_append]
  rfl

theorem labels_declareClasses (r : Resolver) (cs : List ClassDecl) :
    (cs.foldl (declareClass voc) r).symbols.classSymbols.map Symbol.label =
      r.symbols.classSymbols.map Symbol.label ++
        cs.map fun c => (c.name, c.site, voc.types.lookup? c.name) := by
  induction cs generalizing r with
  | nil => simp
  | cons c rest ih =>
    rw [List.foldl_cons, ih, labels_declareClass, List.append_assoc, List.map_cons]
    rfl

/-- Going through bodies gives no class a symbol. -/
theorem classSymbols_run (r : Resolver) {steps : List Step}
    (h : ∀ v, .declare .type v ∉ steps) :
    (run voc r steps).symbols.classSymbols = r.symbols.classSymbols := by
  induction steps generalizing r with
  | nil => rfl
  | cons s rest ih =>
    rw [run_cons, ih _ fun v hv => h v (List.mem_cons_of_mem s hv)]
    obtain ⟨e, _, _, _, _, -, hs, -⟩ | ⟨kind, v, _, _, rfl, hs⟩ | ⟨-, _, _, hs⟩ :=
      step_cases voc r s
    · rw [hs]
    · rw [hs]
      refine SymbolTable.classSymbols_insert_of_ne fun hk => ?_
      subst hk
      exact h v List.mem_cons_self
    · rw [hs]

end Resolver

/-- The symbols of classes, in the order of the classes, are typed by what was entered last under
the simple name of each. -/
theorem labels_classSymbols_resolve (order : ClassOrder) (u : CompilationUnit)
    (signatures : Signatures) :
    (resolve order u signatures).model.symbols.classSymbols.map Symbol.label =
      u.classPaths.map fun x => (x.1.name, x.1.site, u.enteredName? x.1.name) := by
  let voc : Vocabulary := { types := TypeNames.ofUnit u signatures, signatures, order }
  let start := u.allClasses.foldl (Resolver.declareClass voc) {}
  have hsteps : ∀ v, .declare .type v ∉ ClassDecl.stepsOf u.classes := by
    intro v hv
    obtain ⟨c, -, m, -, hm⟩ := ClassDecl.declare_mem_stepsOf hv
    obtain ⟨body, -, ⟨hk, -⟩ | ⟨origin, hk, -⟩⟩ := MethodDecl.declare_mem_steps hm
    · cases hk
    · cases hk
  have hrun :
      (resolve order u signatures).model.symbols.classSymbols = start.symbols.classSymbols := by
    show (Resolver.resolveClasses voc start u.classes).symbols.classSymbols = _
    rw [Resolver.resolveClasses_declareClasses, Resolver.classSymbols_run voc _ hsteps]
  rw [hrun, Resolver.labels_declareClasses, ← u.map_fst_classPaths, List.map_map]
  refine List.map_congr_left fun x hx => ?_
  have hname : voc.types.lookup? x.1.name = u.enteredName? x.1.name :=
    CompilationUnit.lookup?_ofUnit signatures hx
  show (x.1.name, x.1.site, voc.types.lookup? x.1.name) = _
  rw [hname]

/-- The classes of a unit have their symbols, in order, each with the name and the place of its
class. Each symbol is typed by the nesting path of its own class if and only if no two classes of
the unit have one simple name and different nesting paths. -/
theorem classSymbols_own_paths_iff (order : ClassOrder) (u : CompilationUnit)
    (signatures : Signatures) :
    (resolve order u signatures).model.symbols.classSymbols.map Symbol.label =
      u.classPaths.map (fun x => (x.1.name, x.1.site, some (dotted x.2))) ↔
    ∀ x ∈ u.classPaths, ∀ y ∈ u.classPaths, x.1.name = y.1.name → dotted x.2 = dotted y.2 := by
  have hown : (resolve order u signatures).model.symbols.classSymbols.map Symbol.label =
      u.classPaths.map (fun x => (x.1.name, x.1.site, some (dotted x.2))) ↔
      ∀ x ∈ u.classPaths, u.enteredName? x.1.name = some (dotted x.2) := by
    rw [labels_classSymbols_resolve, List.map_inj_left]
    simp only [Prod.mk.injEq, true_and]
  rw [hown]
  constructor
  · intro h x hx y hy hname
    have hx' := h x hx
    rw [hname, h y hy] at hx'
    exact (Option.some.inj hx').symm
  · intro h x hx
    obtain ⟨y, hy, hname, he⟩ := CompilationUnit.exists_enteredName? hx
    rw [he, h y hy x hx hname]

/-- Two classes of a package, each with a member class `Inner`. -/
def repeatedNameUnit : CompilationUnit where
  package := some "p"
  classes := [
    { site := ⟨1, {}⟩, name := "A", fields := [], methods := [],
      nested := [{ site := ⟨2, {}⟩, name := "Inner", fields := [], methods := [], nested := [] }] },
    { site := ⟨3, {}⟩, name := "B", fields := [], methods := [],
      nested := [{ site := ⟨4, {}⟩, name := "Inner", fields := [], methods := [], nested := [] }] }]

/-- The nesting paths of the four classes differ, but both classes `Inner` are typed by the path of
the second one. -/
theorem classSymbols_repeatedNameUnit :
    (repeatedNameUnit.classPaths.map Prod.snd).Nodup ∧
    repeatedNameUnit.classPaths.map (fun x => (x.1.id, dotted x.2)) =
      [(1, "p.A"), (2, "p.A.Inner"), (3, "p.B"), (4, "p.B.Inner")] ∧
    (resolve .increasing repeatedNameUnit {}).model.symbols.classSymbols.map
        (fun s => (s.decl, s.type)) =
      [(1, some "p.A"), (2, some "p.B.Inner"), (3, some "p.B"), (4, some "p.B.Inner")] := by
  decide +kernel

end HandleLint
