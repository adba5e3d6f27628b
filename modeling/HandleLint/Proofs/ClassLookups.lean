import HandleLint.Lint
import HandleLint.Proofs.DeclaredMembers
import HandleLint.Proofs.Occurrence
import HandleLint.Proofs.SymbolOrigins
import Mathlib.Data.List.Nodup

/-!
# Classes by their names

Which class is found under a qualified name depends on the order in which classes are gone through.
Where no two classes of a unit get the same name, it does not, and the unit is resolved to the same
tables in every order.

* `Resolver.classNamed?_eq_some_iff`: the class of a name, if names are apart;
* `Vocabulary.Agrees`: two vocabularies that answer alike;
* `resolve_eq_of_agrees`: units with the same classes, and vocabularies that agree;
* `resolve_eq_of_order`, `lint_eq_of_order`: a unit in two orders.
-/

namespace HandleLint

open HandleLint.Resolver (Step)

namespace Resolver

variable {voc : Vocabulary} {r : Resolver}

/-- Classes that are known have different names. -/
def NamesApart (r : Resolver) : Prop :=
  ∀ a b m m', r.members.get? a = some m → r.members.get? b = some m' → m.name = m'.name → a = b

theorem mem_arrange_iff {order : ClassOrder} {members : Table NodeId ClassMembers} {c : NodeId}
    {m : ClassMembers} : (c, m) ∈ order.arrange members.toList ↔ members.get? c = some m := by
  rw [(order.perm _).mem_iff, members.mem_toList_iff]

/-- The order does not show where names are apart. -/
theorem classNamed?_eq_some_iff (hnames : r.NamesApart) {name : String} {c : NodeId} :
    classNamed? voc r name = some c ↔ ∃ m, r.members.get? c = some m ∧ m.name = some name := by
  constructor
  · intro h
    obtain ⟨⟨c, m⟩, hfound, rfl⟩ := Option.map_eq_some_iff.1 h
    have hname : m.name = some name := by simpa using List.find?_some hfound
    exact ⟨m, mem_arrange_iff.1 (List.mem_of_find?_eq_some hfound), hname⟩
  · rintro ⟨m, hm, hname⟩
    have hsome : ((voc.order.arrange r.members.toList).find?
        fun entry => entry.2.name = some name).isSome :=
      List.find?_isSome.2 ⟨(c, m), mem_arrange_iff.2 hm, by simp [hname]⟩
    obtain ⟨⟨d, m'⟩, hfound⟩ := Option.isSome_iff_exists.1 hsome
    have hname' : m'.name = some name := by simpa using List.find?_some hfound
    have hd := mem_arrange_iff.1 (List.mem_of_find?_eq_some hfound)
    rw [classNamed?, ClassOrder.find?, hfound, hnames c d m m' hm hd (hname.trans hname'.symm)]
    rfl

/-- What is known of a class is known under its number and its name. -/
theorem class_of_members {cs : List ClassDecl} {i : NodeId} {m : ClassMembers}
    (h : (cs.foldl (declareClass voc) r).members.get? i = some m) :
    r.members.get? i = some m ∨ ∃ c ∈ cs, c.id = i ∧ voc.types.lookup? c.name = m.name := by
  induction cs generalizing r with
  | nil => exact .inl h
  | cons c rest ih =>
    rcases ih h with h | ⟨d, hd, hid, hname⟩
    · obtain ⟨fields, methods, hmembers⟩ := members_declareClass voc r c
      rw [hmembers, Table.get?_insert] at h
      split at h
      · rename_i hi
        cases h
        exact .inr ⟨c, List.mem_cons_self, (eq_of_beq hi).symm, rfl⟩
      · exact .inl h
    · exact .inr ⟨d, List.mem_cons_of_mem c hd, hid, hname⟩

end Resolver

namespace CompilationUnit

variable {u : CompilationUnit} {order : ClassOrder} {signatures : Signatures}

/-- No two classes of the unit get the same qualified name. -/
def ClassNamesDiffer (u : CompilationUnit) (signatures : Signatures) : Prop :=
  (u.allClasses.map fun c => (TypeNames.ofUnit u signatures).lookup? c.name).Nodup

theorem namesApart_announced (names : u.ClassNamesDiffer signatures) :
    (u.announced order signatures).NamesApart := by
  intro a b m m' ha hb hname
  have hclass : ∀ {i m}, (u.announced order signatures).members.get? i = some m →
      ∃ c ∈ u.allClasses, c.id = i ∧ (TypeNames.ofUnit u signatures).lookup? c.name = m.name := by
    intro i m hi
    exact (Resolver.class_of_members hi).resolve_left nofun
  obtain ⟨c, hc, rfl, hcname⟩ := hclass ha
  obtain ⟨d, hd, rfl, hdname⟩ := hclass hb
  rw [List.inj_on_of_nodup_map names hc hd (hcname.trans (hname.trans hdname.symm))]

end CompilationUnit

/-! ## Vocabularies that agree -/

/-- The same names are known, the same types are returned, and the same classes are found among
given ones. -/
structure Vocabulary.Agrees (members : Table NodeId ClassMembers) (voc voc' : Vocabulary) :
    Prop where
  types : voc'.types = voc.types
  returns : ∀ owner method,
    voc'.signatures.returns? owner method = voc.signatures.returns? owner method
  classes : ∀ name, voc'.order.find? members name = voc.order.find? members name

namespace Vocabulary.Agrees

variable {members : Table NodeId ClassMembers} {voc voc' : Vocabulary} {r : Resolver}
  (h : Agrees members voc voc')
include h

theorem staticType? (r : Resolver) (e : Expr) :
    Resolver.staticType? voc' r e = Resolver.staticType? voc r e := by
  induction e using Expr.induction_parts with
  | step e ih =>
  cases e with
  | ident s name => simp only [Resolver.staticType?, h.types]
  | new s type args => simp only [Resolver.staticType?, h.types]
  | cast s type operand => simp only [Resolver.staticType?, h.types]
  | conditional s condition whenTrue whenFalse => exact ih whenTrue (by simp [Expr.parts])
  | assign s target value => exact ih target List.mem_cons_self
  | _ => rfl

theorem memberTarget (hr : r.members = members) (owner method : String) (arity : Nat) :
    r.memberTarget voc' owner method arity = r.memberTarget voc owner method arity := by
  have hclass : Resolver.classNamed? voc' r owner = Resolver.classNamed? voc r owner := by
    rw [Resolver.classNamed?, Resolver.classNamed?, hr, h.classes]
  rw [Resolver.memberTarget, Resolver.memberTarget, h.returns, hclass]

theorem callTarget (hr : r.members = members) (receiver : Option Expr) (method : String)
    (arity : Nat) (span : Span) :
    r.callTarget voc' receiver method arity span = r.callTarget voc receiver method arity span := by
  cases receiver with
  | none => rfl
  | some e =>
    rw [Resolver.callTarget, Resolver.callTarget, h.staticType?]
    simp only [h.memberTarget hr]

theorem visit (hr : r.members = members) (e : Expr) : r.visit voc' e = r.visit voc e := by
  cases e with
  | ident s name => rw [Resolver.visit, Resolver.visit, h.types]
  | call s receiver method args => rw [Resolver.visit, Resolver.visit, h.callTarget hr]
  | _ => rfl

theorem step (hr : r.members = members) (s : Step) : r.step voc' s = r.step voc s := by
  cases s with
  | visit e => exact h.visit hr e
  | declare kind v => rw [Resolver.step, Resolver.step, h.types]
  | _ => rfl

theorem run (hr : r.members = members) (steps : List Step) :
    Resolver.run voc' r steps = Resolver.run voc r steps := by
  induction steps generalizing r with
  | nil => rfl
  | cons s rest ih =>
    have hr' : (Resolver.step voc r s).members = members :=
      (Resolver.step_members voc r s).trans hr
    rw [Resolver.run_cons, Resolver.run_cons, h.step hr, ih hr']

theorem declareClass (r : Resolver) (c : ClassDecl) :
    r.declareClass voc' c = r.declareClass voc c := by
  obtain ⟨types, signatures, order⟩ := voc
  obtain ⟨types', signatures', order'⟩ := voc'
  obtain rfl : types' = types := h.types
  rfl

end Vocabulary.Agrees

section Resolve

variable {u u' : CompilationUnit} {s s' : Signatures} {order order' : ClassOrder}

/-- Vocabularies that agree give the same tables, with the same notes. -/
theorem resolve_eq_of_agrees (hclasses : u'.classes = u.classes)
    (h : Vocabulary.Agrees (u.announced order s).members (u.vocabulary order s)
      (u'.vocabulary order' s')) :
    resolve order' u' s' = resolve order u s := by
  have hdeclared : u'.announced order' s' = u.announced order s := by
    rw [CompilationUnit.announced, CompilationUnit.announced, CompilationUnit.allClasses, hclasses]
    exact List.foldl_ext _ _ _ fun r c _ => h.declareClass r c
  have hresolved : Resolver.resolveClasses (u'.vocabulary order' s') (u'.announced order' s')
        u'.classes =
      Resolver.resolveClasses (u.vocabulary order s) (u.announced order s) u.classes := by
    rw [CompilationUnit.announced, Resolver.resolveClasses_declareClasses,
      CompilationUnit.announced, Resolver.resolveClasses_declareClasses]
    show Resolver.run _ (u'.announced order' s') _ = Resolver.run _ (u.announced order s) _
    rw [hdeclared, hclasses, h.run rfl]
  -- A last note is taken on the tables as they are then.
  exact congrArg (fun r : Resolver =>
    let r := r.note (.resolved r.symbols.size r.calls.size r.problems.size)
    Resolution.mk r.toModel r.notes) hresolved

/-- A unit is resolved to the same in two orders, if they are one order or no two of its classes get
the same name. -/
theorem resolve_eq_of_order (h : order' = order ∨ u.ClassNamesDiffer s) :
    resolve order' u s = resolve order u s := by
  obtain rfl | names := h
  · rfl
  · refine resolve_eq_of_agrees rfl ⟨rfl, fun _ _ => rfl, fun name => Option.ext fun c => ?_⟩
    have hfound : ∀ voc : Vocabulary, voc.order.find? (u.announced order s).members name = some c ↔
        ∃ m, (u.announced order s).members.get? c = some m ∧ m.name = some name :=
      fun _ => Resolver.classNamed?_eq_some_iff (CompilationUnit.namesApart_announced names)
    exact (hfound (u.vocabulary order' s)).trans (hfound (u.vocabulary order s)).symm

end Resolve

section Lint

variable {source source' : SourceUnit} {config : LintConfig} {order order' : ClassOrder}

/-- Nothing but the classes of a unit and what they are resolved to shows in what is reported. -/
theorem lint_eq_of_resolve (opts : Filters) (hpath : source'.path = source.path)
    (htext : source'.source = source.source)
    (hclasses : source'.unit.classes = source.unit.classes)
    (hresolve : resolve order' source'.unit (lintSignatures source' config) =
      resolve order source.unit (lintSignatures source config)) :
    lint order' source' config opts = lint order source config opts := by
  have hmethods : source'.unit.allMethods = source.unit.allMethods := by
    rw [CompilationUnit.allMethods, CompilationUnit.allClasses, hclasses]
    rfl
  have hcheck : ∀ w rules, checkUnit w rules source'.unit = checkUnit w rules source.unit := by
    intro w rules
    rw [checkUnit, checkUnit, hmethods]
  have hexamine : examine order' source' config opts = examine order source config opts := by
    simp only [examine, hresolve, hcheck, hpath]
  simp only [lint, hexamine, hpath, htext]

/-- A unit gets the same report in two orders, if they are one order or no two of its classes get
the same name. -/
theorem lint_eq_of_order (opts : Filters)
    (h : order' = order ∨ source.unit.ClassNamesDiffer (lintSignatures source config)) :
    lint order' source config opts = lint order source config opts :=
  lint_eq_of_resolve opts rfl rfl rfl (resolve_eq_of_order h)

end Lint

end HandleLint
