import HandleLint.Lint
import HandleLint.Proofs.ClassNames
import HandleLint.Proofs.MirroredResolution
import Mathlib.Data.List.Nodup

/-!
# What names are known

What a unit is resolved against is held in lists that were filled one entry after the other. Sorted
lists are determined by what they hold; where later entries win over earlier ones, it counts which
entries there are under one key.

* `Table.ext_get?`: tables that are read alike are the same table;
* `Signatures.mem_types_lintSignatures_iff`, `Signatures.returns?_lintSignatures_eq_some_iff`: known
  types and signatures;
* `TypeNames.lookup?_ofUnit`, `TypeNames.ofUnit_eq`: simple names, and when two units know the same;
* `TypeNames.lookup_onDemandEntries_eq_some_iff`: the types of packages imported whole.
-/

namespace HandleLint

/-! ## Lists in order -/

/-- Lists in strict order that hold the same are the same list. -/
theorem eq_of_strictly_ordered {α : Type} {r : α → α → Prop} (asymm : ∀ a b, r a b → ¬ r b a)
    {xs ys : List α} (hxs : xs.Pairwise r) (hys : ys.Pairwise r) (h : ∀ a, a ∈ xs ↔ a ∈ ys) :
    xs = ys := by
  have hne : ∀ {a b}, r a b → a ≠ b := by
    rintro a _ hr rfl
    exact asymm a a hr hr
  have hperm : xs.Perm ys := (List.perm_ext_iff_of_nodup (hxs.imp hne) (hys.imp hne)).2 h
  exact hperm.eq_of_pairwise (fun a b _ _ hab hba => absurd hba (asymm a b hab)) hxs hys

theorem Table.ext_get? {κ α : Type} [BEq κ] [LawfulBEq κ] [Ord κ] [Std.TransOrd κ]
    [Std.LawfulEqOrd κ] {t t' : Table κ α} (h : ∀ k, t.get? k = t'.get? k) : t = t' := by
  have hentries : t.entries = t'.entries := by
    refine eq_of_strictly_ordered (fun a b => Std.OrientedCmp.not_lt_of_lt) t.sorted t'.sorted ?_
    rintro ⟨k, v⟩
    have hmem : (k, v) ∈ t.toList ↔ t.get? k = some v := t.mem_toList_iff
    rw [h k, ← t'.mem_toList_iff] at hmem
    exact hmem
  cases t
  cases t'
  simp only at hentries
  simp only [hentries]

/-- If there is but one value under a key, it is the one that is found. -/
theorem lookup_reverse_eq_some_iff {κ α : Type} [BEq κ] [LawfulBEq κ] {entries : List (κ × α)}
    {k : κ} (single : ∀ a b, (k, a) ∈ entries → (k, b) ∈ entries → a = b) {v : α} :
    entries.reverse.lookup k = some v ↔ (k, v) ∈ entries := by
  have hfound : ∀ {v}, entries.reverse.lookup k = some v → (k, v) ∈ entries := by
    intro v h
    obtain ⟨before, after, heq, -⟩ := List.lookup_eq_some_iff.1 h
    have hmem : (k, v) ∈ entries.reverse := heq ▸ List.mem_append_right _ List.mem_cons_self
    exact List.mem_reverse.1 hmem
  refine ⟨hfound, fun h => ?_⟩
  cases hlookup : entries.reverse.lookup k with
  | some v' => rw [single v' v (hfound hlookup) h]
  | none =>
    have hne := List.lookup_eq_none_iff.1 hlookup (k, v) (List.mem_reverse.2 h)
    simp at hne

/-! ## Signatures -/

/-- The types that a signature speaks of. -/
def MethodSignature.types (m : MethodSignature) : List String :=
  if m.returns = "void" then [m.owner] else [m.owner, m.returns]

/-- The types that are known when a unit is checked: those of its signatures, and those that are
watched. -/
def SourceUnit.knownTypes (source : SourceUnit) (config : LintConfig) : List String :=
  source.signatures.flatMap MethodSignature.types ++
    [config.resource.handleType, config.resource.factoryType]

namespace Signatures

theorem mem_types_insert_iff {s : Signatures} {m : MethodSignature} {t : String} :
    t ∈ (s.insert m).types ↔ t ∈ m.types ∨ t ∈ s.types := by
  by_cases hvoid : m.returns = "void"
  · have hinsert : (s.insert m).types = (s.declare m.owner).types := by
      rw [Signatures.insert, if_pos hvoid]
      rfl
    rw [hinsert, mem_types_declare_iff, MethodSignature.types, if_pos hvoid, List.mem_singleton]
  · have hinsert : (s.insert m).types = ((s.declare m.owner).declare m.returns).types := by
      rw [Signatures.insert, if_neg hvoid]
      rfl
    rw [hinsert, mem_types_declare_iff, mem_types_declare_iff, MethodSignature.types,
      if_neg hvoid]
    simp [or_assoc, or_left_comm]

theorem mem_types_foldl_insert_iff {ms : List MethodSignature} {s : Signatures} {t : String} :
    t ∈ (ms.foldl insert s).types ↔ t ∈ ms.flatMap MethodSignature.types ∨ t ∈ s.types := by
  induction ms generalizing s with
  | nil => simp
  | cons m ms ih =>
    rw [List.foldl_cons, ih, mem_types_insert_iff, List.flatMap_cons, List.mem_append]
    exact or_left_comm.trans or_assoc.symm

theorem mem_types_lintSignatures_iff {source : SourceUnit} {config : LintConfig} {t : String} :
    t ∈ (lintSignatures source config).types ↔ t ∈ source.knownTypes config := by
  simp only [lintSignatures, mem_types_declare_iff, ofList, mem_types_foldl_insert_iff,
    SourceUnit.knownTypes, List.mem_append, List.mem_cons, List.not_mem_nil, or_false]
  tauto

theorem entries_foldl_insert (ms : List MethodSignature) (s : Signatures) :
    (ms.foldl insert s).entries = ms.reverse ++ s.entries := by
  have hinsert : ∀ (s : Signatures) m, (s.insert m).entries = m :: s.entries := by
    intro s m
    unfold Signatures.insert
    by_cases hvoid : m.returns = "void" <;> simp [hvoid, declare]
  induction ms generalizing s with
  | nil => rfl
  | cons m ms ih =>
    rw [List.foldl_cons, ih, hinsert, List.reverse_cons, List.append_assoc]
    rfl

/-- What a method returns, where no two signatures of one method differ. -/
theorem returns?_lintSignatures_eq_some_iff {source : SourceUnit} (config : LintConfig)
    (single : ∀ m ∈ source.signatures, ∀ m' ∈ source.signatures, m.owner = m'.owner →
      m.method = m'.method → m.returns = m'.returns) (owner method type : String) :
    (lintSignatures source config).returns? owner method = some type ↔
      type ≠ "void" ∧ ⟨owner, method, type⟩ ∈ source.signatures := by
  have hentries : (lintSignatures source config).entries = source.signatures.reverse := by
    show (source.signatures.foldl insert {}).entries = _
    rw [entries_foldl_insert]
    exact List.append_nil _
  unfold returns?
  rw [hentries]
  cases hfind : source.signatures.reverse.find? fun m => m.owner = owner ∧ m.method = method with
  | none =>
    refine ⟨nofun, fun ⟨_, hmem⟩ => ?_⟩
    have hnone := List.find?_eq_none.1 hfind _ (List.mem_reverse.2 hmem)
    simp at hnone
  | some m =>
    have hmem : m ∈ source.signatures := List.mem_reverse.1 (List.mem_of_find?_eq_some hfind)
    have hkey := List.find?_some hfind
    simp only [decide_eq_true_eq] at hkey
    obtain ⟨rfl, rfl⟩ := hkey
    have hvalue : ∀ {type}, ⟨m.owner, m.method, type⟩ ∈ source.signatures → m.returns = type :=
      fun h => single m hmem _ h rfl rfl
    by_cases hvoid : m.returns = "void"
    · simp only [Option.bind_eq_bind, Option.bind_some, if_pos hvoid]
      refine ⟨nofun, fun ⟨hne, h⟩ => absurd ((hvalue h).symm.trans hvoid) hne⟩
    · simp only [Option.bind_eq_bind, Option.bind_some, if_neg hvoid]
      constructor
      · intro h
        obtain rfl : m.returns = type := Option.some.inj h
        exact ⟨hvoid, hmem⟩
      · rintro ⟨-, h⟩
        rw [hvalue h]
        rfl

end Signatures

/-! ## Simple names -/

namespace TypeNames

/-- Of the entries under a name, those of classes win, then the types imported by themselves, then
those of packages imported whole. -/
theorem lookup?_ofUnit (u : CompilationUnit) (s : Signatures) (k : String) :
    (ofUnit u s).lookup? k =
      ((classEntries u.package u.classes).reverse.lookup k).or
        (((importEntries u.imports).reverse.lookup k).or
          (((onDemandEntries u.imports s.types).reverse.lookup k).or
            (langEntries.reverse.lookup k))) := by
  rw [lookup?, ofUnit, entries, Table.get?_foldl_insert, Table.get?_empty, Option.or_none]
  simp only [List.reverse_append, List.lookup_append]

/-- Two units with the same classes know the same names, if imports lead to the same types. -/
theorem ofUnit_eq {u u' : CompilationUnit} {s s' : Signatures} (hpackage : u'.package = u.package)
    (hclasses : u'.classes = u.classes)
    (h : ∀ k,
      ((importEntries u'.imports).reverse.lookup k).or
        ((onDemandEntries u'.imports s'.types).reverse.lookup k) =
      ((importEntries u.imports).reverse.lookup k).or
        ((onDemandEntries u.imports s.types).reverse.lookup k)) :
    ofUnit u' s' = ofUnit u s := by
  have hknown : (ofUnit u' s').known = (ofUnit u s).known := by
    refine Table.ext_get? fun k => ?_
    show (ofUnit u' s').lookup? k = (ofUnit u s).lookup? k
    rw [lookup?_ofUnit, lookup?_ofUnit, hpackage, hclasses]
    congr 1
    rw [← Option.or_assoc, h k, Option.or_assoc]
  exact congrArg TypeNames.mk hknown

theorem mem_importEntries_iff {imports : List String} {entry : String × String} :
    entry ∈ importEntries imports ↔ entry.2 ∈ imports ∧ importedPackage? entry.2 = none ∧
      ∃ package, Text.splitQualified? entry.2 = some (package, entry.1) := by
  obtain ⟨simple, type⟩ := entry
  unfold importEntries
  rw [List.mem_filterMap]
  constructor
  · rintro ⟨i, hi, he⟩
    split at he
    · rename_i package simple' hsingle hsplit
      cases he
      exact ⟨hi, hsingle, package, hsplit⟩
    · cases he
  · rintro ⟨hi, hsingle, package, hsplit⟩
    refine ⟨type, hi, ?_⟩
    simp only at hsingle hsplit
    simp only [hsingle, hsplit]

/-- A package that is imported whole holds a known type under a simple name. -/
def Held (imports types : List String) (k t : String) : Prop :=
  t ∈ types ∧ ∃ package, Text.splitQualified? t = some (package, k) ∧
    package ∈ imports.filterMap importedPackage?

theorem held_append_singleton_iff {imports seen : List String} {type k t : String} :
    Held imports (seen ++ [type]) k t ↔ Held imports seen k t ∨ Held imports [type] k t := by
  unfold Held
  rw [List.mem_append, or_and_right]

/-- What is found of the types with a property: nothing if there are none, the type if there is one,
and that there are several. -/
inductive Told (held : String → Prop) : Option (Option String) → Prop
  | none : (∀ t, ¬ held t) → Told held none
  | one {t : String} : (∀ t', held t' ↔ t' = t) → Told held (some (some t))
  | several {t t' : String} : t ≠ t' → held t → held t' → Told held (some none)

namespace Told

variable {held held' : String → Prop} {found : Option (Option String)}

theorem congr (h : Told held found) (heq : ∀ t, held' t ↔ held t) : Told held' found := by
  obtain rfl : held' = held := funext fun t => propext (heq t)
  exact h

/-- One more type. -/
theorem meet (h : Told held found) {type : String} (heq : ∀ t, held' t ↔ held t ∨ t = type) :
    Told held' (some (meet type found)) := by
  cases h with
  | none hnone =>
    refine .one fun t => ?_
    rw [heq]
    exact or_iff_right (hnone t)
  | @one t hone =>
    show Told held' (some (if some t = some type then some t else Option.none))
    by_cases ht : t = type
    · subst ht
      rw [if_pos rfl]
      refine .one fun t' => ?_
      rw [heq, hone, or_self]
    · rw [if_neg fun h => ht (Option.some.inj h)]
      exact .several ht ((heq t).2 (.inl ((hone t).2 rfl))) ((heq type).2 (.inr rfl))
  | several hne ht ht' =>
    exact .several hne ((heq _).2 (.inl ht)) ((heq _).2 (.inl ht'))

theorem eq_some_iff (h : Told held found) {t : String} :
    found = some (some t) ↔ ∀ t', held t' ↔ t' = t := by
  cases h with
  | none hnone => exact iff_of_false nofun fun h => hnone t ((h t).2 rfl)
  | @one s hone =>
    simp only [Option.some_inj, hone]
    exact ⟨fun h t' => h ▸ Iff.rfl, fun h => (h s).1 rfl⟩
  | several hne ht ht' =>
    exact iff_of_false nofun fun h => hne (((h _).1 ht).trans ((h _).1 ht').symm)

end Told

section Found

variable {imports types : List String} {k t : String}

theorem held_singleton_iff {type package simple : String}
    (hsplit : Text.splitQualified? type = some (package, simple)) :
    Held imports [type] k t ↔
      (k = simple ∧ package ∈ imports.filterMap importedPackage?) ∧ t = type := by
  unfold Held
  rw [List.mem_singleton]
  constructor
  · rintro ⟨rfl, package', hsplit', hp⟩
    rw [hsplit, Option.some_inj, Prod.mk.injEq] at hsplit'
    obtain ⟨rfl, rfl⟩ := hsplit'
    exact ⟨⟨rfl, hp⟩, rfl⟩
  · rintro ⟨⟨rfl, hp⟩, rfl⟩
    exact ⟨rfl, package, hsplit, hp⟩

/-- One known type: what is found stays right when it counts among those seen. -/
theorem told_findType {seen : List String} {found : Table String (Option String)}
    (h : ∀ k, Told (Held imports seen k) (found.get? k)) (type : String) (k : String) :
    Told (Held imports (seen ++ [type]) k)
      ((findType (imports.filterMap importedPackage?) found type).get? k) := by
  -- a type that does not count changes nothing
  have hskip : (∀ t, ¬ Held imports [type] k t) →
      Told (Held imports (seen ++ [type]) k) (found.get? k) := fun hnone =>
    (h k).congr fun t => held_append_singleton_iff.trans (or_iff_left (hnone t))
  unfold findType
  cases hsplit : Text.splitQualified? type with
  | none =>
    refine hskip ?_
    rintro t ⟨ht, package, ht', -⟩
    rw [List.mem_singleton.1 ht, hsplit] at ht'
    cases ht'
  | some parts =>
    obtain ⟨package, simple⟩ := parts
    have hheld : ∀ t, Held imports [type] k t ↔
        (k = simple ∧ package ∈ imports.filterMap importedPackage?) ∧ t = type :=
      fun _ => held_singleton_iff hsplit
    by_cases hp : package ∈ imports.filterMap importedPackage?
    · simp only [if_pos hp, Table.get?_insert]
      by_cases hk : k = simple
      · subst hk
        rw [if_pos (beq_self_eq_true k)]
        refine (h k).meet fun t => held_append_singleton_iff.trans (or_congr_right ?_)
        simpa [hp] using hheld t
      · rw [if_neg fun hbeq => hk (eq_of_beq hbeq)]
        exact hskip fun t ht => hk ((hheld t).1 ht).1.1
    · simp only [if_neg hp]
      exact hskip fun t ht => hp ((hheld t).1 ht).1.2

/-- All known types. -/
theorem told_foldl_findType (imports types : List String) (k : String) :
    Told (Held imports types k)
      ((types.foldl (findType (imports.filterMap importedPackage?)) {}).get? k) := by
  have hrun : ∀ (seen : List String) {found : Table String (Option String)},
      (∀ k, Told (Held imports seen k) (found.get? k)) →
      Told (Held imports (seen ++ types) k)
        ((types.foldl (findType (imports.filterMap importedPackage?)) found).get? k) := by
    induction types with
    | nil =>
      intro seen found h
      rw [List.append_nil]
      exact h k
    | cons type rest ih =>
      intro seen found h
      rw [List.append_cons]
      exact ih _ (told_findType h type)
  exact hrun [] fun k => .none fun t ht => List.not_mem_nil ht.1

theorem mem_onDemandEntries_iff :
    (k, t) ∈ onDemandEntries imports types ↔ ∀ t', Held imports types k t' ↔ t' = t := by
  rw [← (told_foldl_findType imports types k).eq_some_iff, ← Table.mem_toList_iff]
  unfold onDemandEntries
  by_cases hnone : (imports.filterMap importedPackage?).isEmpty
  · -- without packages nothing is found
    rw [if_pos hnone, Table.mem_toList_iff, (told_foldl_findType imports types k).eq_some_iff]
    refine iff_of_false List.not_mem_nil fun h => ?_
    obtain ⟨-, package, -, hp⟩ := (h t).2 rfl
    rw [List.isEmpty_iff.1 hnone] at hp
    cases hp
  · simp only [if_neg hnone, List.mem_filterMap, Option.map_eq_some_iff]
    constructor
    · rintro ⟨⟨simple, _⟩, hmem, type, rfl, heq⟩
      obtain ⟨rfl, rfl⟩ := Prod.mk.inj heq
      exact hmem
    · intro hmem
      exact ⟨_, hmem, t, rfl, rfl⟩

/-- A name stands for a type of a package imported whole if that is the only one of the name. -/
theorem lookup_onDemandEntries_eq_some_iff :
    (onDemandEntries imports types).reverse.lookup k = some t ↔
      ∀ t', Held imports types k t' ↔ t' = t := by
  rw [← mem_onDemandEntries_iff]
  refine lookup_reverse_eq_some_iff fun a b ha hb => ?_
  rw [mem_onDemandEntries_iff] at ha hb
  exact (hb a).1 ((ha a).2 rfl)

end Found

end TypeNames

end HandleLint
