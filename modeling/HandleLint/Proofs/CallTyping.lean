import HandleLint.Proofs.DeclaredMethods
import HandleLint.Proofs.EnclosingClasses
import HandleLint.Proofs.RenamedVariables

/-!
# What calls call

While a unit is gone through, the target of a call is found from tables that are being filled. In
the end it is the target that the full tables give, by rules that know of no order (`Model.callIn`):

* a call on `this`, written or not, goes to the innermost class around it that declares a method of
  the name (`Model.ownCall`);
* any other call goes to the type of its receiver, a class of the unit or one that signatures tell
  of (`Model.typeIn?`, `Model.memberCall`).

The proof has two halves. A resolver that knows all classes follows the rules
(`Resolver.Informed.callTarget_eq`), and what a resolver finds for a call it would find later as
well (`Resolver.callTarget_later`), since the receiver was gone through before.
-/

namespace HandleLint

open HandleLint.Resolver (Step)

/-! ## The rules -/

namespace Model

/-- The type of an expression inside classes, the innermost first. An identifier that refers to
nothing may name a type. -/
def typeIn? (m : Model) (types : TypeNames) (around : List ClassDecl) : Expr → Option String
  | .ident s name =>
    match m.reference? s.id with
    | some id => m.typeOf? id
    | none => types.qualify name
  | .field s _ _ => (m.reference? s.id).bind m.typeOf?
  | .this _ => around.head?.bind m.className?
  | .call s _ _ _ => (m.callTarget? s.id).bind (·.returns)
  | .new _ type _ => types.qualify type
  | .cast _ type _ => types.qualify type
  | .string _ _ => some "java.lang.String"
  | .conditional _ _ whenTrue _ => typeIn? m types around whenTrue
  | .assign _ target _ => typeIn? m types around target
  | _ => none

/-- A call of a method of a class, if the class has it. -/
def methodTarget (m : Model) (owner : Option String) (f : Option MethodDecl) : CallTarget :=
  let callee := f.bind fun f => m.declaration? f.id
  { owner, returns := callee.bind m.typeOf?, callee }

/-- A call on `this`: the innermost class that declares a method of the name has the method. -/
def ownCall (m : Model) (around : List ClassDecl) (method : String) (arity : Nat) : CallTarget :=
  match around.find? fun c => c.methods.any (·.name = method) with
  | some c => m.methodTarget (m.className? c) (c.overload? method arity)
  | none => {}

/-- A call on a value of a type: a class of the unit has the method, or a signature tells what it
returns. -/
def memberCall (m : Model) (signatures : Signatures) (classes : List ClassDecl)
    (owner method : String) (arity : Nat) : CallTarget :=
  match classes.find? (m.className? · = some owner) with
  | some c => m.methodTarget (some owner) (c.overload? method arity)
  | none => { owner := some owner, returns := signatures.returns? owner method }

/-- What a call calls, by the tables: a call that stands inside the classes `around` in a unit of
the classes `classes`. -/
def callIn (m : Model) (voc : Vocabulary) (classes around : List ClassDecl)
    (receiver : Option Expr) (method : String) (arity : Nat) : CallTarget :=
  if receiver.all Expr.isThis then m.ownCall around method arity
  else
    match receiver.bind (m.typeIn? voc.types around) with
    | none => {}
    | some owner => m.memberCall voc.signatures classes owner method arity

end Model

/-! ## A resolver that knows all classes -/

/-- A search for the first result, where it is known which places have one. -/
theorem findSome?_eq_bind_find? {α β : Type} {f : α → Option β} {p : α → Bool} {as : List α}
    (h : ∀ a ∈ as, f a = none ↔ p a = false) : as.findSome? f = (as.find? p).bind f := by
  induction as with
  | nil => rfl
  | cons a rest ih =>
    obtain ⟨ha, hrest⟩ := List.forall_mem_cons.1 h
    rw [List.findSome?_cons, List.find?_cons, ih hrest]
    cases hp : p a with
    | false => rw [ha.2 hp]
    | true =>
      cases hf : f a with
      | none => cases hp.symm.trans (ha.1 hf)
      | some b => exact hf.symm

namespace Resolver

variable {voc : Vocabulary} {r r' : Resolver} {classes around : List ClassDecl}

namespace Informed

theorem localMethod?_eq (h : r.Informed voc classes)
    (haround : r.scopes.enclosingClasses = around.map ClassDecl.id)
    (hsub : ∀ c ∈ around, c ∈ classes) (method : String) (arity : Nat) :
    r.localMethod? method arity =
      (around.find? fun c => c.methods.any (·.name = method)).bind fun c =>
        (r.findMethod? c.id method arity).map (c.id, ·) := by
  rw [localMethod?, haround, List.findSome?_map]
  refine findSome?_eq_bind_find? fun c hc => ?_
  rw [Function.comp, Option.map_eq_none_iff]
  exact (h.known c (hsub c hc)).findMethod?_eq_none_iff

theorem ownTarget_eq (h : r.Informed voc classes)
    (haround : r.scopes.enclosingClasses = around.map ClassDecl.id)
    (hsub : ∀ c ∈ around, c ∈ classes) (method : String) (arity : Nat) (span : Span) :
    (r.ownTarget method arity span).1 = r.ownCall around method arity := by
  rw [ownTarget, Model.ownCall, h.localMethod?_eq haround hsub]
  cases hfind : around.find? fun c => c.methods.any (·.name = method) with
  | none => rfl
  | some c =>
    have hknown := h.known c (hsub c (List.mem_of_find?_eq_some hfind))
    have hfound : r.findMethod? c.id method arity ≠ none := by
      rw [Ne, hknown.findMethod?_eq_none_iff, List.find?_some hfind]
      exact Bool.noConfusion
    obtain ⟨id, hid⟩ := Option.ne_none_iff_exists'.1 hfound
    have hcallee := hid.symm.trans (hknown.findMethod?_eq h.faithful method arity)
    simp only [Option.bind_some, hid, Option.map_some, Model.methodTarget, ← hcallee,
      hknown.className?_eq h.faithful]

theorem memberTarget_eq (h : r.Informed voc classes) (owner method : String) (arity : Nat) :
    (memberTarget voc r owner method arity).1 =
      r.memberCall voc.signatures classes owner method arity := by
  rw [memberTarget, Model.memberCall, h.classNamed?_eq]
  cases hfind : classes.find? (r.className? · = some owner) with
  | some c =>
    have hknown := h.known c (List.mem_of_find?_eq_some hfind)
    simp only [Option.map_some, Model.methodTarget, hknown.findMethod?_eq h.faithful]
  | none =>
    simp only [Option.map_none]
    cases voc.signatures.returns? owner method <;> rfl

theorem staticType?_eq (h : r.Informed voc classes)
    (haround : r.scopes.enclosingClasses = around.map ClassDecl.id)
    (hsub : ∀ c ∈ around, c ∈ classes) (e : Expr) :
    staticType? voc r e = r.typeIn? voc.types around e := by
  induction e using Expr.induction_parts with
  | step e ih =>
    cases e with
    | this site =>
      rw [staticType?, Model.typeIn?, haround]
      cases around with
      | nil => rfl
      | cons c outer =>
        exact ((h.known c (hsub c List.mem_cons_self)).className?_eq h.faithful).symm
    | conditional site condition whenTrue whenFalse =>
      rw [staticType?, Model.typeIn?]
      exact ih whenTrue (by simp [Expr.parts])
    | assign site target value =>
      rw [staticType?, Model.typeIn?]
      exact ih target List.mem_cons_self
    | _ => rfl

theorem callTarget_eq (h : r.Informed voc classes)
    (haround : r.scopes.enclosingClasses = around.map ClassDecl.id)
    (hsub : ∀ c ∈ around, c ∈ classes) (receiver : Option Expr) (method : String) (arity : Nat)
    (span : Span) :
    (callTarget voc r receiver method arity span).1 =
      r.callIn voc classes around receiver method arity := by
  have hown := h.ownTarget_eq haround hsub method arity span
  unfold callTarget Model.callIn
  cases receiver with
  | none => exact hown
  | some e =>
    simp only [Option.all_some, Option.bind_some, h.staticType?_eq haround hsub e]
    split
    · exact hown
    · cases r.typeIn? voc.types around e with
      | none => rfl
      | some owner => exact h.memberTarget_eq owner method arity

end Informed

/-! ## Earlier and later tables -/

/-- The same number, of a symbol that there is. -/
def SameSymbol (r : Resolver) (id id' : SymbolId) : Prop :=
  id' = id ∧ ∃ s, r.symbol? id = some s

/-- When there are more symbols, the classes around and their members look the same. -/
theorem likens_later (hr : r.Grounded) (hkeeps : r.Keeps r'.toModel)
    (hmembers : r'.members = r.members)
    (haround : r'.scopes.enclosingClasses = r.scopes.enclosingClasses) :
    Likens (fun i => i) r.SameSymbol r r' := by
  have hsymbol : ∀ {id}, (∃ s, r.symbol? id = some s) → r'.symbol? id = r.symbol? id :=
    fun ⟨_, hs⟩ => (hkeeps.symbols hs).trans hs.symm
  have hmember : ∀ {c id}, id ∈ (r.classMembers c).fields ++ (r.classMembers c).methods →
      ∃ s, r.symbol? id = some s := by
    intro c id hid
    rcases List.mem_append.1 hid with hid | hid
    · exact (hr.fields hid).imp fun _ hs => hs.1
    · exact (hr.methods hid).1.imp fun _ hs => hs.1
  constructor
  case types =>
    rintro id _ ⟨rfl, hid⟩
    rw [Model.typeOf?, hsymbol hid, Model.typeOf?]
  case around => rw [haround, List.map_id']
  case classNamed? =>
    intro voc name
    rw [Option.map_id_fun', classNamed?, hmembers]
    rfl
  case members =>
    intro c
    rw [classMembers, hmembers, classMembers]
  case shared => exact fun hid => ⟨rfl, hmember hid⟩
  case names => exact fun hid name => by rw [hsymbol (hmember hid)]
  case kinds => exact fun hid arity => by rw [hsymbol (hmember (List.mem_append_right _ hid))]

theorem alikeOn_later (hr : r.Grounded) {e : Expr}
    (hreferences : ∀ x, e.Inside x → r'.reference? x.id = r.reference? x.id)
    (hcalls : ∀ x, e.Inside x → r'.callTarget? x.id = r.callTarget? x.id) :
    AlikeOn {} r.SameSymbol r r' e where
  references := by
    intro x hx
    have hsame : r'.reference? (Relabelling.node {} x.id) = r.reference? x.id := hreferences x hx
    rw [hsame]
    cases href : r.reference? x.id with
    | none => exact .none
    | some id => exact .some ⟨rfl, (hr.model.references href).imp fun _ hs => hs.1⟩
  calls := fun {x} hx => hcalls x hx
  names := fun _ _ => rfl

/-- What a resolver finds for a call it finds later as well, from the same classes around, as long
as the tables say the same about the receiver. -/
theorem callTarget_later (hr : r.Grounded) (hkeeps : r.Keeps r'.toModel)
    (hmembers : r'.members = r.members)
    (haround : r'.scopes.enclosingClasses = r.scopes.enclosingClasses) {receiver : Option Expr}
    (hreferences : ∀ e ∈ receiver, ∀ x, e.Inside x → r'.reference? x.id = r.reference? x.id)
    (hcalls : ∀ e ∈ receiver, ∀ x, e.Inside x → r'.callTarget? x.id = r.callTarget? x.id)
    (method : String) (arity : Nat) (span : Span) :
    (callTarget voc r' receiver method arity span).1 =
      (callTarget voc r receiver method arity span).1 := by
  have hsame := Likens.callTarget (ρ := {}) (likens_later hr hkeeps hmembers haround) voc
    (fun e he => alikeOn_later hr (hreferences e he) (hcalls e he)) method arity span
  rwa [Option.map_eq_self Expr.relabel_self] at hsame

/-- The target that a resolver finds for a call is what the rules give on later tables, when all
classes are known. -/
theorem Informed.callTarget_eq_callIn (h : r'.Informed voc classes) (hr : r.Grounded)
    (hkeeps : r.Keeps r'.toModel) (hmembers : r'.members = r.members)
    (haround : r.scopes.enclosingClasses = around.map ClassDecl.id)
    (hsub : ∀ c ∈ around, c ∈ classes) {receiver : Option Expr}
    (hreferences : ∀ e ∈ receiver, ∀ x, e.Inside x → r'.reference? x.id = r.reference? x.id)
    (hcalls : ∀ e ∈ receiver, ∀ x, e.Inside x → r'.callTarget? x.id = r.callTarget? x.id)
    (method : String) (arity : Nat) (span : Span) :
    (callTarget voc r receiver method arity span).1 =
      r'.callIn voc classes around receiver method arity := by
  let late : Resolver := { r' with scopes := r.scopes }
  have hlate : late.Informed voc classes :=
    ⟨h.faithful, fun c hc => (h.known c hc).mono (fun hs => hs) rfl, h.listed, h.apart⟩
  have hkept : r.Keeps late.toModel := hkeeps
  have hfound : (callTarget voc late receiver method arity span).1 =
      (callTarget voc r receiver method arity span).1 :=
    callTarget_later hr hkept hmembers rfl hreferences hcalls method arity span
  exact hfound.symm.trans (hlate.callTarget_eq haround hsub receiver method arity span)

end Resolver

/-! ## A whole unit -/

section Unit

variable {u : CompilationUnit} {order : ClassOrder} {signatures : Signatures}

theorem callTarget?_of_mentions (distinct : u.nodeIds.Nodup)
    (names : u.ClassNamesDiffer signatures) {c : ClassDecl} {outer : List ClassDecl} {site : Site}
    {receiver : Option Expr} {method : String} {args : List Expr}
    (hc : (c, outer) ∈ u.nestings) (he : c.Mentions (.call site receiver method args)) :
    (resolve order u signatures).model.callTarget? site.id =
      some ((resolve order u signatures).model.callIn (u.vocabulary order signatures) u.allClasses
        (c :: outer) receiver method args.length) := by
  let voc := u.vocabulary order signatures
  obtain ⟨before, after, hsteps, hclasses⟩ :=
    CompilationUnit.exists_before_visit hc (ClassDecl.visit_mem_ownSteps_iff.2 he)
  let r := Resolver.run voc (u.announced order signatures) before
  -- The target that is found at the visit is not written over.
  have hwritten : (resolve order u signatures).model.callTarget? site.id =
      some (Resolver.callTarget voc r receiver method args.length site.span).1 := by
    have hvisited := CompilationUnit.nodup_visited distinct
    rw [hsteps, List.filterMap_append] at hvisited
    have hafter : site.id ∉ after.filterMap Step.visited? :=
      (List.nodup_cons.1 (List.nodup_append.1 hvisited).2.1).1
    rw [model_eq_run signatures hsteps, Resolver.run_cons]
    exact (Resolver.callTarget?_run_of_not_mem _ _ hafter).trans
      (Resolver.callTarget?_visit_call voc r site receiver method args)
  have hpart : ∀ e ∈ receiver, e ∈ (Expr.call site receiver method args).parts := fun e he =>
    List.mem_append_left _ (Option.mem_toList.2 he)
  have hgrounded : r.Grounded := (grounded_announced order u signatures).run fun s hs =>
    declaresValue_of_mem_stepsOf (hsteps ▸ List.mem_append_left _ hs)
  have haround : r.scopes.enclosingClasses = (c :: outer).map ClassDecl.id := by
    rw [((u.within_announced order signatures).run voc before).enclosingClasses, hclasses]
  have hinformed := CompilationUnit.informed_run order distinct names
  rw [hsteps, Resolver.run_append] at hinformed
  rw [hwritten, model_eq_run signatures hsteps]
  refine congrArg some (hinformed.callTarget_eq_callIn hgrounded (Resolver.keeps_run _ _ _)
    (Resolver.frame_run _ _ _).members haround (CompilationUnit.mem_allClasses_of_nestings hc)
    (fun e he x hx => ?_) (fun e he x hx => ?_) method args.length site.span)
  · exact Resolver.reference?_run_of_not_mem _ _
      (notMem_visited_of_part distinct hsteps (hpart e he) hx)
  · exact Resolver.callTarget?_run_of_not_mem _ _
      (notMem_visited_of_part distinct hsteps (hpart e he) hx)

/-- An entry of the table is about a call that a class of the unit mentions. -/
theorem exists_mentions_of_callTarget? {node : NodeId} {target : CallTarget}
    (h : (resolve order u signatures).model.callTarget? node = some target) :
    ∃ c outer site receiver method args, (c, outer) ∈ u.nestings ∧
      c.Mentions (.call site receiver method args) ∧ site.id = node := by
  rw [resolve_model, Model.callTarget?, Resolver.calls_run,
    (u.announced_announced order signatures).calls] at h
  rcases Resolver.mem_of_get?_writeCalls h with hnone | ⟨e, he, rfl⟩
  · cases hnone
  have hfst := List.mem_map_of_mem (f := Prod.fst) he
  rw [Resolver.map_fst_recorded, List.mem_filter, List.mem_filterMap] at hfst
  obtain ⟨⟨s, hs, hvisit⟩, hcall⟩ := hfst
  cases s with
  | visit e =>
    cases hvisit
    cases e with
    | call site receiver method args =>
      rcases ClassDecl.mem_stepsOf u.classes hs with hleave | ⟨c, hc, hopen | hown⟩
      · cases hleave
      · cases hopen
      · obtain ⟨outer, hnested⟩ := CompilationUnit.exists_nestings hc
        exact ⟨c, outer, site, receiver, method, args, hnested,
          ClassDecl.visit_mem_ownSteps_iff.1 hown, rfl⟩
    | _ => cases hcall
  | _ => cases hvisit

/-- The table of calls is what the rules give on the tables that a unit ends with, itself included:
in a unit whose nodes have distinct numbers and whose classes have distinct names, it has an entry
for every call in the initial value of a field or in the body of a method, the target that the
rules give for it inside the classes around it, and no other entry. -/
theorem callTarget?_resolve_iff (order : ClassOrder) (u : CompilationUnit) (signatures : Signatures)
    (distinct : u.nodeIds.Nodup) (names : u.ClassNamesDiffer signatures) (node : NodeId)
    (target : CallTarget) :
    let m := (resolve order u signatures).model
    m.callTarget? node = some target ↔
      ∃ c outer site receiver method args, (c, outer) ∈ u.nestings ∧
        c.Mentions (.call site receiver method args) ∧ site.id = node ∧
        target = m.callIn (u.vocabulary order signatures) u.allClasses (c :: outer) receiver method
          args.length := by
  intro m
  constructor
  · intro h
    obtain ⟨c, outer, site, receiver, method, args, hc, he, rfl⟩ :=
      exists_mentions_of_callTarget? h
    exact ⟨c, outer, site, receiver, method, args, hc, he, rfl,
      Option.some.inj (h.symm.trans (callTarget?_of_mentions distinct names hc he))⟩
  · rintro ⟨c, outer, site, receiver, method, args, hc, he, rfl, rfl⟩
    exact callTarget?_of_mentions distinct names hc he

end Unit

/-- A class with two methods `make`, of which one returns a pool. A field starts from a call of the
other; a member class calls `make` on `this` with one argument too many, on what `make` returned in
one branch of a conditional, the pool in turn, and a method that it does not have on itself. -/
def chainingUnit : CompilationUnit where
  package := some "p"
  imports := ["q.Pool"]
  classes := [{
    site := ⟨0, {}⟩
    name := "Outer"
    fields := [⟨⟨1, {}⟩, "first", "Outer", some (.call ⟨2, {}⟩ none "make" [.null ⟨3, {}⟩])⟩]
    methods := [
      ⟨⟨4, {}⟩, "make", [], some "Pool", none⟩,
      ⟨⟨5, {}⟩, "make", [⟨⟨6, {}⟩, "n", "int", none⟩], some "Outer", none⟩]
    nested := [{
      site := ⟨7, {}⟩
      name := "Inner"
      fields := []
      methods := [⟨⟨8, {}⟩, "run", [], none, some [
        .exprStmt ⟨9, {}⟩ (.call ⟨10, {}⟩ (some (.this ⟨11, {}⟩)) "make"
          [.null ⟨12, {}⟩, .null ⟨13, {}⟩]),
        .exprStmt ⟨14, {}⟩ (.call ⟨15, {}⟩ (some (.call ⟨16, {}⟩ (some (.conditional ⟨17, {}⟩
          (.bool ⟨18, {}⟩ true) (.call ⟨19, {}⟩ none "make" [.null ⟨20, {}⟩]) (.null ⟨21, {}⟩)))
          "make" [])) "open" []),
        .exprStmt ⟨22, {}⟩ (.call ⟨23, {}⟩ (some (.cast ⟨24, {}⟩ "Inner"
          (.ident ⟨25, {}⟩ "first"))) "stop" [])]⟩]
      nested := [] }] }]

def openSignatures : Signatures :=
  .ofList [⟨"q.Pool", "open", "q.Handle"⟩]

theorem callTarget?_resolve_iff_chainingUnit :
    let m := (resolve .increasing chainingUnit openSignatures).model
    chainingUnit.nodeIds.Nodup ∧ chainingUnit.ClassNamesDiffer openSignatures ∧
    m.calls.toList =
      [(2, ⟨some "p.Outer", some "p.Outer", some 3⟩), (10, ⟨some "p.Outer", some "q.Pool", some 2⟩),
        (15, ⟨some "q.Pool", some "q.Handle", none⟩), (16, ⟨some "p.Outer", some "q.Pool", some 2⟩),
        (19, ⟨some "p.Outer", some "p.Outer", some 3⟩), (23, ⟨some "p.Outer.Inner", none, none⟩)] ∧
    ∃ c outer site receiver method args, (c, outer) ∈ chainingUnit.nestings ∧
      c.Mentions (.call site receiver method args) ∧ site.id = 16 ∧
      ⟨some "p.Outer", some "q.Pool", some 2⟩ =
        m.callIn (chainingUnit.vocabulary .increasing openSignatures) chainingUnit.allClasses
          (c :: outer) receiver method args.length := by
  intro m
  have distinct : chainingUnit.nodeIds.Nodup := by decide
  have names : chainingUnit.ClassNamesDiffer openSignatures := by
    unfold CompilationUnit.ClassNamesDiffer
    decide +kernel
  have hentry : m.callTarget? 16 = some ⟨some "p.Outer", some "q.Pool", some 2⟩ := by
    decide +kernel
  exact ⟨distinct, names, by decide +kernel,
    (callTarget?_resolve_iff .increasing chainingUnit openSignatures distinct names 16 _).1 hentry⟩

end HandleLint
