import HandleLint.Handles.Event
import HandleLint.Tree.Order
import Mathlib.Logic.Relation
import Mathlib.Tactic.Tauto

/-!
# What stands in a body

Bodies are nested twice: statements hold statements, and expressions hold expressions. Here one
level of each nesting is a list, and standing somewhere in a body is reaching a node through these
levels. The passes that flatten a body are tied to that reading:

* `Expr.parts`, `Stmt.expressions`, `Stmt.inner`: one level;
* `Expr.Inside`, `Stmt.Occurs`: any depth;
* `Expr.mem_preorder_iff`, `Expr.mem_postorder_iff`: both orders list what is inside an expression;
* `call_mem_eventsOf_iff`: the call events of a body are the calls that occur in it.

The initial value of a catch parameter does not count as standing in a body.
-/

namespace HandleLint

namespace Expr

/-- The expressions directly inside an expression, from left to right. -/
def parts : Expr → List Expr
  | field _ object _ => [object]
  | call _ receiver _ args => receiver.toList ++ args
  | new _ _ args => args
  | assign _ target value => [target, value]
  | binary _ _ left right => [left, right]
  | unary _ _ operand => [operand]
  | conditional _ condition whenTrue whenFalse => [condition, whenTrue, whenFalse]
  | cast _ _ operand => [operand]
  | instanceOf _ operand _ => [operand]
  | index _ array position => [array, position]
  | null _ | bool _ _ | int _ _ | string _ _ | ident _ _ | this _ => []

/-- `part` is `whole`, or stands inside it at any depth. -/
def Inside (whole part : Expr) : Prop :=
  Relation.ReflTransGen (fun e p => p ∈ e.parts) whole part

theorem preorderAll_eq_flatMap (es : List Expr) : preorderAll es = es.flatMap preorder := by
  induction es with
  | nil => rw [preorderAll, List.flatMap_nil]
  | cons e es ih => rw [preorderAll, ih, List.flatMap_cons]

/-- An expression comes first, then its parts one after the other. -/
theorem preorder_eq_cons (e : Expr) : e.preorder = e :: e.parts.flatMap preorder := by
  cases e with
  | call site receiver method args =>
    cases receiver <;> simp [preorder, parts, preorderAll_eq_flatMap]
  | _ => simp [preorder, parts, preorderAll_eq_flatMap]

/-- Induction on the nesting of an expression. -/
theorem induction_parts {P : Expr → Prop} (step : ∀ e, (∀ p ∈ e.parts, P p) → P e) (e : Expr) :
    P e := by
  apply preorder.induct P fun es => ∀ p ∈ es, P p
  case case18 =>
    intro p hp
    cases hp
  case case19 =>
    intro e es he hes p hp
    rcases List.mem_cons.1 hp with rfl | hp
    · exact he
    · exact hes p hp
  all_goals
    intros
    apply step
    clear step
    simp_all [parts]

theorem mem_preorder_iff {e x : Expr} : x ∈ e.preorder ↔ e.Inside x := by
  induction e using induction_parts with
  | step e ih =>
    rw [preorder_eq_cons, List.mem_cons, List.mem_flatMap]
    constructor
    · rintro (rfl | ⟨p, hp, hx⟩)
      · exact .refl
      · exact .head hp ((ih p hp).1 hx)
    · intro h
      rcases Relation.ReflTransGen.cases_head h with rfl | ⟨p, hp, hx⟩
      · exact .inl rfl
      · exact .inr ⟨p, hp, (ih p hp).2 hx⟩

theorem postorderAll_eq_flatMap (es : List Expr) : postorderAll es = es.flatMap postorder := by
  induction es with
  | nil => rw [postorderAll, List.flatMap_nil]
  | cons e es ih => rw [postorderAll, ih, List.flatMap_cons]

/-- The parts of an expression come one after the other, then the expression. -/
theorem postorder_eq_concat (e : Expr) : e.postorder = e.parts.flatMap postorder ++ [e] := by
  cases e with
  | call site receiver method args =>
    cases receiver <;> simp [postorder, parts, postorderAll_eq_flatMap]
  | _ => simp [postorder, parts, postorderAll_eq_flatMap]

theorem mem_postorder_iff {e x : Expr} : x ∈ e.postorder ↔ e.Inside x := by
  induction e using induction_parts with
  | step e ih =>
    rw [postorder_eq_concat, List.mem_append, List.mem_singleton, List.mem_flatMap]
    constructor
    · rintro (⟨p, hp, hx⟩ | rfl)
      · exact .head hp ((ih p hp).1 hx)
      · exact .refl
    · intro h
      rcases Relation.ReflTransGen.cases_head h with rfl | ⟨p, hp, hx⟩
      · exact .inr rfl
      · exact .inl ⟨p, hp, (ih p hp).2 hx⟩

theorem call_mem_events_iff {e : Expr} {site : Site} {receiver : Option Expr} {method : String}
    {args : List Expr} :
    .call site receiver method args ∈ e.events ↔ e.Inside (call site receiver method args) := by
  simp only [events, List.mem_filterMap, mem_preorder_iff]
  constructor
  · rintro ⟨x, hx, he⟩
    cases x <;> cases he
    exact hx
  · intro h
    exact ⟨_, h, rfl⟩

end Expr

namespace Stmt

/-- The expressions of a statement outside of the statements inside it, with the initial values of
what it declares. -/
def expressions : Stmt → List Expr
  | exprStmt _ value => [value]
  | localVar _ var => var.init.toList
  | returnStmt _ value => value.toList
  | ifStmt _ condition _ _ => [condition]
  | whileStmt _ condition _ => [condition]
  | forStmt _ _ condition update _ => condition.toList ++ update
  | forEachStmt _ var iterated _ => var.init.toList ++ [iterated]
  | tryStmt _ resources _ _ _ => resources.flatMap (·.init.toList)
  | throwStmt _ value => [value]
  | block _ _ | breakStmt _ | continueStmt _ => []

/-- The statements directly inside a statement. -/
def inner : Stmt → List Stmt
  | block _ body => body
  | ifStmt _ _ thenBranch elseBranch => thenBranch ++ elseBranch.getD []
  | whileStmt _ _ body => body
  | forStmt _ init _ _ body => init ++ body
  | forEachStmt _ _ _ body => body
  | tryStmt _ _ body catches finallyBlock =>
    body ++ catches.flatMap CatchClause.body ++ finallyBlock.getD []
  | exprStmt _ _ | localVar _ _ | returnStmt _ _ | throwStmt _ _ | breakStmt _
  | continueStmt _ => []

/-- The expression stands somewhere in a body: in a statement of it, at any depth, and in an
expression of that statement, at any depth. -/
def Occurs (body : List Stmt) (e : Expr) : Prop :=
  ∃ outer ∈ body, ∃ s, Relation.ReflTransGen (fun s t => t ∈ s.inner) outer s ∧
    ∃ value ∈ s.expressions, value.Inside e

/-- Induction on the nesting of a statement. -/
theorem induction_inner {P : Stmt → Prop} (step : ∀ s, (∀ t ∈ s.inner, P t) → P s) (s : Stmt) :
    P s := by
  apply events.induct P (fun catches => ∀ c ∈ catches, ∀ t ∈ c.body, P t)
    fun body => ∀ t ∈ body, P t
  case case16 =>
    intro t ht
    cases ht
  case case17 =>
    intro s rest hs hrest t ht
    rcases List.mem_cons.1 ht with rfl | ht
    · exact hs
    · exact hrest t ht
  case case18 =>
    intro c hc
    cases hc
  case case19 =>
    intro param body rest hbody hrest c hc t ht
    rcases List.mem_cons.1 hc with rfl | hc
    · exact hbody t ht
    · exact hrest c hc t ht
  all_goals
    intros
    apply step
    clear step
    simp only [inner, List.mem_append, List.mem_flatMap, Option.getD_some, Option.getD_none,
      List.not_mem_nil, or_false]
    grind

end Stmt

/-! ## The events of a body -/

theorem eventsOf_eq_flatMap (lists : ResourceLists) (body : List Stmt) :
    eventsOf lists body = body.flatMap (Stmt.events lists) := by
  induction body with
  | nil => rw [eventsOf, List.flatMap_nil]
  | cons s rest ih => rw [eventsOf, ih, List.flatMap_cons]

theorem eventsOfCatches_eq_flatMap (lists : ResourceLists) (catches : List CatchClause) :
    eventsOfCatches lists catches = catches.flatMap fun c => eventsOf lists c.body := by
  induction catches with
  | nil => rw [eventsOfCatches, List.flatMap_nil]
  | cons c rest ih =>
    cases c
    rw [eventsOfCatches, ih, List.flatMap_cons, CatchClause.body]

section Calls

variable {site : Site} {receiver : Option Expr} {method : String} {args : List Expr}

theorem VarDecl.call_mem_events_iff {v : VarDecl} :
    .call site receiver method args ∈ v.events ↔
      .call site receiver method args ∈ v.init.toList.flatMap Expr.events := by
  unfold VarDecl.events
  cases v.init <;> simp

theorem call_mem_flatMap_events_iff {vs : List VarDecl} :
    .call site receiver method args ∈ vs.flatMap VarDecl.events ↔
      .call site receiver method args ∈ (vs.flatMap (·.init.toList)).flatMap Expr.events := by
  rw [List.flatMap_assoc, List.mem_flatMap, List.mem_flatMap]
  simp only [VarDecl.call_mem_events_iff]

/-- The calls of a statement are those of its own expressions and of the statements inside it. -/
theorem Stmt.call_mem_events_iff {s : Stmt} :
    .call site receiver method args ∈ s.events .visit ↔
      .call site receiver method args ∈ s.expressions.flatMap Expr.events ∨
      .call site receiver method args ∈ s.inner.flatMap (events .visit) := by
  cases s with
  | returnStmt site value => cases value <;> simp [events, expressions, inner]
  | ifStmt site condition thenBranch elseBranch =>
    cases elseBranch <;> simp [events, expressions, inner, eventsOf_eq_flatMap]
  | forStmt site init condition update body =>
    simp only [events, expressions, inner, eventsOf_eq_flatMap, List.flatMap_append,
      List.mem_append]
    tauto
  | forEachStmt site var iterated body =>
    simp only [events, expressions, inner, eventsOf_eq_flatMap, VarDecl.call_mem_events_iff,
      List.flatMap_append, List.flatMap_singleton, List.mem_append]
  | tryStmt site resources body catches finallyBlock =>
    cases finallyBlock <;>
      simp only [events, expressions, inner, eventsOf_eq_flatMap, eventsOfCatches_eq_flatMap,
        ResourceLists.events, call_mem_flatMap_events_iff, List.flatMap_append, List.flatMap_assoc,
        List.mem_append, Option.getD_none, Option.getD_some, List.flatMap_nil, List.not_mem_nil,
        or_false, or_assoc]
  | _ => simp [events, expressions, inner, eventsOf_eq_flatMap, VarDecl.call_mem_events_iff]

/-- The call events of a body are the calls that stand somewhere in it. -/
theorem call_mem_eventsOf_iff {body : List Stmt} :
    .call site receiver method args ∈ eventsOf .visit body ↔
      Stmt.Occurs body (.call site receiver method args) := by
  have hs : ∀ s : Stmt, .call site receiver method args ∈ s.events .visit ↔
      ∃ t, Relation.ReflTransGen (fun s t => t ∈ s.inner) s t ∧
        ∃ value ∈ t.expressions, value.Inside (.call site receiver method args) := by
    intro s
    induction s using Stmt.induction_inner with
    | step s ih =>
      rw [Stmt.call_mem_events_iff, List.mem_flatMap, List.mem_flatMap]
      simp only [Expr.call_mem_events_iff]
      constructor
      · rintro (h | ⟨t, ht, h⟩)
        · exact ⟨s, .refl, h⟩
        · obtain ⟨last, hway, h⟩ := (ih t ht).1 h
          exact ⟨last, .head ht hway, h⟩
      · rintro ⟨last, hway, h⟩
        rcases Relation.ReflTransGen.cases_head hway with rfl | ⟨t, ht, hway⟩
        · exact .inl h
        · exact .inr ⟨t, ht, (ih t ht).2 ⟨last, hway, h⟩⟩
  rw [eventsOf_eq_flatMap, List.mem_flatMap]
  exact exists_congr fun s => and_congr_right fun _ => hs s

end Calls

end HandleLint
