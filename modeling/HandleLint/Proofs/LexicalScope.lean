import HandleLint.Proofs.Occurrence
import HandleLint.Tree.Order

/-!
# Lexical scope

What the identifiers of a unit mean by the rules of the language, without symbols and tables: an
*environment* is handed down the tree, and an identifier means the nearest declaration of its name
that is in force where it stands.

* A local is in force after its own initial value, to the end of its list of statements.
* The variables of a `for` cover its condition, its updates and its body.
* The variable of a for-each covers the body, not what is iterated over.
* The resources of a `try` cover the later ones and the body, not the handlers and not `finally`.
* A catch parameter shares one scope with the statements of its handler, and the parameters of a
  method with those of its body.
* The fields of a class are in force everywhere in it, also in its member classes.

`CompilationUnit.uses` lists the identifiers with their meanings; `CompilationUnit.mem_uses_iff`
says that it leaves out none of those in the bodies and the initial values of fields.
-/

namespace HandleLint

/-- The declarations in force, by scopes: the innermost scope first, and in each scope the
declarations in the order of the text. -/
abbrev Env := List (List VarDecl)

namespace Env

/-- The nearest declaration of a name. In one scope it is the first one: declaring a name again is
an error and changes nothing. -/
def lookup? (env : Env) (name : String) : Option VarDecl :=
  env.findSome? fun scope => scope.find? (·.name = name)

/-- Inside a new scope. -/
def nested (env : Env) : Env :=
  [] :: env

/-- After a declaration in the innermost scope. -/
def declare (env : Env) (v : VarDecl) : Env :=
  match env with
  | [] => []
  | scope :: outer => (scope ++ [v]) :: outer

/-- After a statement. -/
def after (env : Env) : Stmt → Env
  | .localVar _ var => env.declare var
  | _ => env

end Env

/-- An identifier with the declaration it means, if any. -/
structure Use where
  site : Site
  name : String
  target : Option VarDecl

/-- An expression that is an identifier, with its meaning. -/
def Env.use? (env : Env) : Expr → Option Use
  | .ident site name => some ⟨site, name, env.lookup? name⟩
  | _ => none

/-- The identifiers in an expression. -/
def Expr.uses (env : Env) (e : Expr) : List Use :=
  e.postorder.filterMap env.use?

/-- The identifiers in the initial value of a variable, which is not in force there yet. -/
def VarDecl.uses (env : Env) (v : VarDecl) : List Use :=
  v.init.toList.flatMap (Expr.uses env)

/-- The identifiers in the initial values of variables that are declared one after the other. -/
def VarDecl.usesInTurn (env : Env) : List VarDecl → List Use
  | [] => []
  | v :: rest => v.uses env ++ usesInTurn (env.declare v) rest

mutual

/-- The identifiers in a statement. -/
def Stmt.uses (env : Env) : Stmt → List Use
  | .exprStmt _ value => value.uses env
  | .localVar _ var => var.uses env
  | .returnStmt _ value => value.toList.flatMap (Expr.uses env)
  | .block _ body => usesOf env.nested body
  | .ifStmt _ condition thenBranch none => condition.uses env ++ usesOf env.nested thenBranch
  | .ifStmt _ condition thenBranch (some elseBranch) =>
    condition.uses env ++ usesOf env.nested thenBranch ++ usesOf env.nested elseBranch
  | .whileStmt _ condition body => condition.uses env ++ usesOf env.nested body
  | .forStmt _ init condition update body =>
    let covered := init.foldl Env.after env.nested
    usesOf env.nested init ++ condition.toList.flatMap (Expr.uses covered) ++
      update.flatMap (Expr.uses covered) ++ usesOf covered.nested body
  | .forEachStmt _ var iterated body =>
    iterated.uses env ++ var.uses env.nested ++ usesOf (env.nested.declare var).nested body
  | .tryStmt _ resources body catches none =>
    VarDecl.usesInTurn env.nested resources ++
      usesOf (resources.foldl Env.declare env.nested).nested body ++ usesOfCatches env catches
  | .tryStmt _ resources body catches (some finallyBlock) =>
    VarDecl.usesInTurn env.nested resources ++
      usesOf (resources.foldl Env.declare env.nested).nested body ++ usesOfCatches env catches ++
      usesOf env.nested finallyBlock
  | .throwStmt _ value => value.uses env
  | .breakStmt _ => []
  | .continueStmt _ => []

/-- The identifiers in a list of statements. -/
def usesOf (env : Env) : List Stmt → List Use
  | [] => []
  | s :: rest => s.uses env ++ usesOf (env.after s) rest

def usesOfCatches (env : Env) : List CatchClause → List Use
  | [] => []
  | .mk param body :: rest =>
    param.uses env.nested ++ usesOf (env.nested.declare param) body ++ usesOfCatches env rest

end

/-- The identifiers in the body of a method. -/
def MethodDecl.uses (env : Env) (m : MethodDecl) : List Use :=
  match m.body with
  | some body => usesOf (m.params.foldl Env.declare env.nested) body
  | none => []

namespace ClassDecl

mutual

/-- The identifiers in a class and in its member classes. -/
def uses (env : Env) : ClassDecl → List Use
  | ⟨_, _, fields, methods, nested⟩ =>
    let inside := fields.foldl Env.declare env.nested
    fields.flatMap (VarDecl.uses inside) ++ methods.flatMap (MethodDecl.uses inside) ++
      usesOf inside nested

def usesOf (env : Env) : List ClassDecl → List Use
  | [] => []
  | c :: cs => uses env c ++ usesOf env cs

end

end ClassDecl

/-- The identifiers of a unit. -/
def CompilationUnit.uses (u : CompilationUnit) : List Use :=
  ClassDecl.usesOf [] u.classes

/-! ## No identifier is left out -/

/-- The initial values of the catch parameters of a statement. -/
def Stmt.caughtValues : Stmt → List Expr
  | .tryStmt _ _ _ catches _ => catches.flatMap (·.param.init.toList)
  | _ => []

/-- The expression stands somewhere in the statement. -/
def Stmt.Mentions (s : Stmt) (e : Expr) : Prop :=
  ∃ last, Relation.ReflTransGen (fun s t => t ∈ s.inner) s last ∧
    ∃ value ∈ last.expressions ++ last.caughtValues, value.Inside e

/-- The expression stands in the initial value of a field or in the body of a method. -/
def ClassDecl.Mentions (c : ClassDecl) (e : Expr) : Prop :=
  (∃ v ∈ c.fields, ∃ value ∈ v.init, value.Inside e) ∨
    ∃ m ∈ c.methods, ∃ body ∈ m.body, ∃ s ∈ body, s.Mentions e

def CompilationUnit.Mentions (u : CompilationUnit) (e : Expr) : Prop :=
  ∃ c ∈ u.allClasses, c.Mentions e

theorem Stmt.mentions_iff {s : Stmt} {e : Expr} :
    s.Mentions e ↔
      (∃ value ∈ s.expressions ++ s.caughtValues, value.Inside e) ∨
        ∃ t ∈ s.inner, t.Mentions e := by
  constructor
  · rintro ⟨last, hway, h⟩
    rcases Relation.ReflTransGen.cases_head hway with rfl | ⟨t, ht, hway⟩
    · exact .inl h
    · exact .inr ⟨t, ht, last, hway, h⟩
  · rintro (h | ⟨t, ht, last, hway, h⟩)
    · exact ⟨s, .refl, h⟩
    · exact ⟨last, .head ht hway, h⟩

section Coverage

/-- The identifier is listed, whatever it means. -/
def Listed (site : Site) (name : String) (uses : List Use) : Prop :=
  ∃ target, ⟨site, name, target⟩ ∈ uses

variable {site : Site} {name : String}

@[simp] theorem not_listed_nil : ¬Listed site name [] := by
  simp [Listed]

@[simp] theorem listed_append {us vs : List Use} :
    Listed site name (us ++ vs) ↔ Listed site name us ∨ Listed site name vs := by
  simp only [Listed, List.mem_append, exists_or]

@[simp] theorem listed_flatMap {α : Type} {f : α → List Use} {as : List α} :
    Listed site name (as.flatMap f) ↔ ∃ a ∈ as, Listed site name (f a) := by
  simp only [Listed, List.mem_flatMap]
  constructor
  · rintro ⟨target, a, ha, h⟩
    exact ⟨a, ha, target, h⟩
  · rintro ⟨a, ha, target, h⟩
    exact ⟨target, a, ha, h⟩

@[simp] theorem Expr.listed_uses_iff {env : Env} {e : Expr} :
    Listed site name (e.uses env) ↔ e.Inside (.ident site name) := by
  simp only [Listed, Expr.uses, List.mem_filterMap, mem_postorder_iff]
  constructor
  · rintro ⟨target, x, hx, hu⟩
    cases x <;> cases hu
    exact hx
  · intro h
    exact ⟨_, _, h, rfl⟩

@[simp] theorem VarDecl.listed_uses_iff {env : Env} {v : VarDecl} :
    Listed site name (v.uses env) ↔ ∃ value ∈ v.init, value.Inside (.ident site name) := by
  simp [VarDecl.uses]

@[simp] theorem VarDecl.listed_usesInTurn_iff {env : Env} {vs : List VarDecl} :
    Listed site name (usesInTurn env vs) ↔
      ∃ v ∈ vs, ∃ value ∈ v.init, value.Inside (.ident site name) := by
  induction vs generalizing env with
  | nil => simp [usesInTurn]
  | cons v rest ih =>
    simp only [usesInTurn, listed_append, listed_uses_iff, ih, List.mem_cons, exists_eq_or_imp]

namespace Stmt

mutual

theorem listed_uses_iff (env : Env) : (s : Stmt) →
    (Listed site name (s.uses env) ↔ s.Mentions (.ident site name))
  | .exprStmt _ value => by
    rw [uses, mentions_iff]
    simp [expressions, caughtValues, inner]
  | .localVar _ var => by
    rw [uses, mentions_iff]
    simp [expressions, caughtValues, inner]
  | .returnStmt _ value => by
    rw [uses, mentions_iff]
    simp [expressions, caughtValues, inner]
  | .block _ body => by
    rw [uses, listed_usesOf_iff env.nested body, mentions_iff]
    simp [expressions, caughtValues, inner]
  | .ifStmt _ condition thenBranch none => by
    rw [uses, listed_append, listed_usesOf_iff env.nested thenBranch, mentions_iff]
    simp [expressions, caughtValues, inner]
  | .ifStmt _ condition thenBranch (some elseBranch) => by
    rw [uses, listed_append, listed_append, listed_usesOf_iff env.nested thenBranch,
      listed_usesOf_iff env.nested elseBranch, mentions_iff]
    simp [expressions, caughtValues, inner, or_and_right, exists_or, or_assoc]
  | .whileStmt _ condition body => by
    rw [uses, listed_append, listed_usesOf_iff env.nested body, mentions_iff]
    simp [expressions, caughtValues, inner]
  | .forStmt _ init condition update body => by
    rw [uses, listed_append, listed_append, listed_append, listed_usesOf_iff env.nested init,
      listed_usesOf_iff _ body, mentions_iff]
    simp only [expressions, caughtValues, inner, List.append_nil, List.mem_append, or_and_right,
      exists_or, listed_flatMap, Expr.listed_uses_iff, Option.mem_toList]
    grind
  | .forEachStmt _ var iterated body => by
    rw [uses, listed_append, listed_append, listed_usesOf_iff _ body, mentions_iff]
    simp only [expressions, caughtValues, inner, List.append_nil, List.mem_append, or_and_right,
      exists_or, Expr.listed_uses_iff, VarDecl.listed_uses_iff, List.mem_singleton, exists_eq_left,
      Option.mem_toList, Option.mem_def]
    grind
  | .tryStmt _ resources body catches none => by
    rw [uses, listed_append, listed_append, listed_usesOf_iff _ body,
      listed_usesOfCatches_iff env catches, mentions_iff]
    simp only [expressions, caughtValues, inner, List.append_nil, List.mem_append, or_and_right,
      exists_or, VarDecl.listed_usesInTurn_iff, List.mem_flatMap, Option.mem_toList, Option.mem_def,
      Option.getD_none]
    grind
  | .tryStmt _ resources body catches (some finallyBlock) => by
    rw [uses, listed_append, listed_append, listed_append, listed_usesOf_iff _ body,
      listed_usesOfCatches_iff env catches, listed_usesOf_iff env.nested finallyBlock,
      mentions_iff]
    simp only [expressions, caughtValues, inner, List.mem_append, or_and_right, exists_or,
      VarDecl.listed_usesInTurn_iff, List.mem_flatMap, Option.mem_toList, Option.mem_def,
      Option.getD_some]
    grind
  | .throwStmt _ value => by
    rw [uses, mentions_iff]
    simp [expressions, caughtValues, inner]
  | .breakStmt _ => by
    rw [uses, mentions_iff]
    simp [expressions, caughtValues, inner]
  | .continueStmt _ => by
    rw [uses, mentions_iff]
    simp [expressions, caughtValues, inner]

theorem listed_usesOf_iff (env : Env) : (body : List Stmt) →
    (Listed site name (usesOf env body) ↔ ∃ s ∈ body, s.Mentions (.ident site name))
  | [] => by simp [usesOf]
  | s :: rest => by
    rw [usesOf, listed_append, Stmt.listed_uses_iff env s, listed_usesOf_iff (env.after s) rest]
    simp only [List.mem_cons, exists_eq_or_imp]

theorem listed_usesOfCatches_iff (env : Env) : (catches : List CatchClause) →
    (Listed site name (usesOfCatches env catches) ↔
      (∃ value ∈ catches.flatMap (·.param.init.toList), value.Inside (.ident site name)) ∨
      ∃ s ∈ catches.flatMap CatchClause.body, s.Mentions (.ident site name))
  | [] => by simp [usesOfCatches]
  | .mk param body :: rest => by
    rw [usesOfCatches, listed_append, listed_append, VarDecl.listed_uses_iff,
      listed_usesOf_iff _ body, listed_usesOfCatches_iff env rest]
    simp only [List.flatMap_cons, List.mem_append, or_and_right, exists_or]
    rw [CatchClause.param, CatchClause.body]
    simp only [Option.mem_toList, Option.mem_def]
    grind

end

end Stmt

theorem MethodDecl.listed_uses_iff {env : Env} {m : MethodDecl} :
    Listed site name (m.uses env) ↔ ∃ body ∈ m.body, ∃ s ∈ body, s.Mentions (.ident site name) := by
  unfold MethodDecl.uses
  cases m.body with
  | none => simp
  | some body => simp [Stmt.listed_usesOf_iff]

namespace ClassDecl

mutual

theorem listed_uses_iff (env : Env) : (c : ClassDecl) →
    (Listed site name (c.uses env) ↔ ∃ d ∈ c.withNested, d.Mentions (.ident site name))
  | ⟨_, _, fields, methods, nested⟩ => by
    rw [uses, listed_append, listed_append, listed_usesOf_iff _ nested, withNested]
    simp only [listed_flatMap, VarDecl.listed_uses_iff, MethodDecl.listed_uses_iff, List.mem_cons,
      exists_eq_or_imp]
    rfl

theorem listed_usesOf_iff (env : Env) : (cs : List ClassDecl) →
    (Listed site name (usesOf env cs) ↔ ∃ d ∈ withNestedAll cs, d.Mentions (.ident site name))
  | [] => by simp [usesOf, withNestedAll]
  | c :: cs => by
    rw [usesOf, listed_append, listed_uses_iff env c, listed_usesOf_iff env cs, withNestedAll]
    simp only [List.mem_append, or_and_right, exists_or]

end

end ClassDecl

/-- The identifiers listed for a unit are those in the initial values of its fields and in the
bodies of its methods. -/
theorem CompilationUnit.mem_uses_iff {u : CompilationUnit} :
    (∃ target, ⟨site, name, target⟩ ∈ u.uses) ↔ u.Mentions (.ident site name) :=
  ClassDecl.listed_usesOf_iff [] u.classes

end Coverage

end HandleLint
