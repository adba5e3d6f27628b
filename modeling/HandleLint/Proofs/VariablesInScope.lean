import HandleLint.Proofs.EventNodes
import HandleLint.Proofs.SymbolOrigins

/-!
# What can be in scope in a method

The variables of a unit, each with the place where it is declared. In the body of a method a name
means a field, a parameter of the method or a variable of its body: never a variable of another
method.

* `CompilationUnit.vars`: the variables with their places;
* `CompilationUnit.eq_of_mem_vars`: with distinct numbers of nodes, a number gives the place;
* `CompilationUnit.exists_use_of_visit`: what an identifier in a method can mean.
-/

namespace HandleLint

open HandleLint.Resolver (Step)

/-- Where a variable is declared. -/
inductive VarPlace
  | field (owner : NodeId)
  | parameter (method : NodeId)
  | body (method : NodeId) (origin : VarOrigin)
  deriving DecidableEq, Repr

def MethodDecl.vars (m : MethodDecl) : List (VarPlace × VarDecl) :=
  m.params.map (.parameter m.id, ·) ++
    (m.body.toList.flatMap declarationsOf).map fun (origin, v) => (.body m.id origin, v)

/-- The variables of a class outside of its member classes. -/
def ClassDecl.vars (c : ClassDecl) : List (VarPlace × VarDecl) :=
  c.fields.map (.field c.id, ·) ++ c.methods.flatMap MethodDecl.vars

/-- All variables of a unit. -/
def CompilationUnit.vars (u : CompilationUnit) : List (VarPlace × VarDecl) :=
  u.allClasses.flatMap ClassDecl.vars

/-! ## Numbers -/

theorem Action.declarations_sublist (actions : List Action) :
    ((actions.filterMap Action.declaration?).map (·.2.id)).Sublist
      (actions.flatMap Action.ids) := by
  rw [List.filterMap_eq_flatMap_toList, List.map_flatMap]
  refine .flatMap_right actions fun a _ => ?_
  cases a with
  | declare origin v =>
    rw [Action.ids_declare]
    exact List.sublist_append_right _ _
  | _ => exact List.nil_sublist _

/-- The numbers of the variables of a method, in the order in which they are declared. -/
def MethodDecl.variableIds (m : MethodDecl) : List NodeId :=
  m.params.map VarDecl.id ++
    m.body.toList.flatMap fun body => ((actionsOf body).filterMap Action.declaration?).map (·.2.id)

theorem MethodDecl.map_id_vars_perm (m : MethodDecl) :
    (m.vars.map (·.2.id)).Perm m.variableIds := by
  rw [vars, variableIds, List.map_append, List.map_map, List.map_map, List.map_flatMap]
  refine .append_left _ (List.Perm.flatMap_left _ fun body _ => ?_)
  exact ((declarations_perm body).map _).symm

theorem MethodDecl.variableIds_sublist (m : MethodDecl) :
    (m.id :: m.variableIds).Sublist m.nodeIds := by
  refine .cons_cons _ ((VarDecl.map_id_sublist m.params).append ?_)
  refine .flatMap_right _ fun body _ => ?_
  exact (Action.declarations_sublist _).trans (Stmt.sublist_nodeIdsOf body)

namespace CompilationUnit

variable {u : CompilationUnit}

theorem nodup_vars (distinct : u.nodeIds.Nodup) : (u.vars.map (·.2.id)).Nodup := by
  have hclass : ∀ c : ClassDecl, (c.vars.map (·.2.id)).Perm
      (c.fields.map VarDecl.id ++ c.methods.flatMap MethodDecl.variableIds) := by
    intro c
    rw [ClassDecl.vars, List.map_append, List.map_map, List.map_flatMap]
    exact .append_left _ (List.Perm.flatMap_left _ fun m _ => m.map_id_vars_perm)
  rw [vars, List.map_flatMap]
  refine (List.Perm.flatMap_left u.allClasses fun c _ => hclass c).nodup_iff.2 ?_
  refine distinct.sublist (.flatMap_right _ fun c _ => .cons _ ?_)
  refine (VarDecl.map_id_sublist c.fields).append (.flatMap_right _ fun m _ => ?_)
  exact (List.sublist_cons_self _ _).trans m.variableIds_sublist

/-- The number of a variable tells which variable it is, and where it is declared. -/
theorem eq_of_mem_vars (distinct : u.nodeIds.Nodup) {x y : VarPlace × VarDecl}
    (hx : x ∈ u.vars) (hy : y ∈ u.vars) (h : x.2.id = y.2.id) : x = y :=
  List.inj_on_of_nodup_map (nodup_vars distinct) hx hy h

theorem nodup_methodIds (distinct : u.nodeIds.Nodup) : (u.allMethods.map MethodDecl.id).Nodup := by
  rw [allMethods, List.map_flatMap]
  refine distinct.sublist (.flatMap_right _ fun c _ => .cons _ ?_)
  refine .trans ?_ (List.sublist_append_right _ _)
  rw [List.map_eq_flatMap]
  exact .flatMap_right _ fun m _ => List.cons_sublist_cons.2 (List.nil_sublist _)

theorem field_mem_vars {c : ClassDecl} {v : VarDecl} (hc : c ∈ u.allClasses)
    (hv : v ∈ c.fields) : (.field c.id, v) ∈ u.vars :=
  List.mem_flatMap.2 ⟨c, hc, List.mem_append_left _ (List.mem_map_of_mem hv)⟩

theorem mem_vars_of_method {m : MethodDecl} {x : VarPlace × VarDecl} (hm : m ∈ u.allMethods)
    (hx : x ∈ m.vars) : x ∈ u.vars := by
  obtain ⟨c, hc, hm⟩ := List.mem_flatMap.1 hm
  exact List.mem_flatMap.2 ⟨c, hc, List.mem_append_right _ (List.mem_flatMap.2 ⟨m, hm, hx⟩)⟩

end CompilationUnit

theorem MethodDecl.body_mem_vars {m : MethodDecl} {body : List Stmt} {origin : VarOrigin}
    {v : VarDecl} (hb : m.body = some body) (h : (origin, v) ∈ declarationsOf body) :
    (.body m.id origin, v) ∈ m.vars := by
  refine List.mem_append_right _ (List.mem_map.2 ⟨(origin, v), ?_, rfl⟩)
  rw [hb]
  exact List.mem_flatMap.2 ⟨body, List.mem_singleton_self body, h⟩

/-- What the steps of a method declare are its parameters and the variables of its body. -/
theorem MethodDecl.mem_vars_of_declare {m : MethodDecl} {kind : SymbolKind} {v : VarDecl}
    (h : .declare kind v ∈ m.steps) :
    kind = .parameter ∧ (.parameter m.id, v) ∈ m.vars ∨
      ∃ body origin, m.body = some body ∧ kind = .var origin ∧
        (origin, v) ∈ declarationsOf body := by
  obtain ⟨body, hb, ⟨hk, hv⟩ | ⟨origin, hk, ha⟩⟩ := declare_mem_steps h
  · exact .inl ⟨hk, List.mem_append_left _ (List.mem_map_of_mem hv)⟩
  · refine .inr ⟨body, origin, hb, hk, ?_⟩
    exact (declarations_perm body).mem_iff.1 (Action.declare_mem_iff.1 ha)

/-! ## Environments -/

namespace Env

variable {env : Env} {v : VarDecl}

theorem mem_flatten_of_lookup? {name : String} (h : env.lookup? name = some v) :
    v ∈ env.flatten := by
  obtain ⟨scope, hs, hv⟩ := List.exists_of_findSome?_eq_some h
  exact List.mem_flatten.2 ⟨scope, hs, List.mem_of_find?_eq_some hv⟩

theorem mem_flatten_declare {w : VarDecl} (h : v ∈ (env.declare w).flatten) :
    v ∈ env.flatten ∨ v = w := by
  cases env with
  | nil => cases h
  | cons scope outer =>
    simp only [declare, List.flatten_cons, List.mem_append, List.mem_singleton] at h ⊢
    rcases h with (h | h) | h
    · exact .inl (.inl h)
    · exact .inr h
    · exact .inl (.inr h)

theorem mem_flatten_foldl_declare {ws : List VarDecl} (h : v ∈ (ws.foldl declare env).flatten) :
    v ∈ env.flatten ∨ v ∈ ws := by
  induction ws generalizing env with
  | nil => exact .inl h
  | cons w rest ih =>
    rcases ih h with h | h
    · rcases mem_flatten_declare h with h | rfl
      · exact .inl h
      · exact .inr List.mem_cons_self
    · exact .inr (List.mem_cons_of_mem w h)

/-- What a step brings into scope. -/
theorem mem_flatten_step {s : Step} (h : v ∈ (env.step s).flatten) :
    v ∈ env.flatten ∨ (∃ kind, s = .declare kind v) ∨ ∃ c, s = .openClass c ∧ v ∈ c.fields := by
  cases s with
  | openClass c =>
    rcases mem_flatten_foldl_declare h with h | h
    · exact .inl h
    · exact .inr (.inr ⟨c, rfl, h⟩)
  | declare kind w =>
    rcases mem_flatten_declare h with h | rfl
    · exact .inl h
    · exact .inr (.inl ⟨kind, rfl⟩)
  | leave =>
    obtain ⟨scope, hs, hv⟩ := List.mem_flatten.1 h
    exact .inl (List.mem_flatten.2 ⟨scope, List.mem_of_mem_tail hs, hv⟩)
  | openMethod m => exact .inl h
  | openBlock => exact .inl h
  | visit e => exact .inl h

/-- An identifier means what was in scope before the steps, or what they brought into scope. -/
theorem target_of_mem_usesAlong {steps : List Step} {use : Use} (h : use ∈ env.usesAlong steps)
    (ht : use.target = some v) :
    v ∈ env.flatten ∨ (∃ kind, .declare kind v ∈ steps) ∨
      ∃ c, .openClass c ∈ steps ∧ v ∈ c.fields := by
  induction steps generalizing env with
  | nil => cases h
  | cons s rest ih =>
    rw [usesAlong, List.mem_append] at h
    rcases h with h | h
    · obtain ⟨-, htarget⟩ := useAt?_eq_some (Option.mem_toList.1 h)
      exact .inl (mem_flatten_of_lookup? (htarget.symm.trans ht))
    · rcases ih h with hv | ⟨kind, hs⟩ | ⟨c, hs, hv⟩
      · rcases mem_flatten_step hv with hv | ⟨kind, rfl⟩ | ⟨c, rfl, hf⟩
        · exact .inl hv
        · exact .inr (.inl ⟨kind, List.mem_cons_self⟩)
        · exact .inr (.inr ⟨c, List.mem_cons_self, hf⟩)
      · exact .inr (.inl ⟨kind, List.mem_cons_of_mem s hs⟩)
      · exact .inr (.inr ⟨c, List.mem_cons_of_mem s hs, hv⟩)

theorem exists_use_of_visit {steps : List Step} {site : Site} {name : String}
    (h : .visit (.ident site name) ∈ steps) : ∃ use ∈ env.usesAlong steps, use.site = site := by
  induction steps generalizing env with
  | nil => cases h
  | cons s rest ih =>
    rcases List.mem_cons.1 h with rfl | h
    · exact ⟨_, List.mem_append_left _ List.mem_cons_self, rfl⟩
    · obtain ⟨use, hu, hsite⟩ := @ih (env.step s) h
      exact ⟨use, List.mem_append_right _ hu, hsite⟩

end Env

/-! ## Methods -/

theorem MethodDecl.openClass_not_mem_steps (c : ClassDecl) (m : MethodDecl) :
    .openClass c ∉ m.steps := by
  have hclass := ClassDecl.openClass_not_mem_ownSteps c
    { site := default, name := "", fields := [], methods := [m], nested := [] }
  simpa [ClassDecl.ownSteps] using hclass

namespace ClassDecl

variable {P : VarDecl → Prop} {m : MethodDecl} {d : ClassDecl}

mutual

theorem exists_env_of_mem_withNested {env : Env} (henv : ∀ v ∈ env.flatten, P v) :
    (c : ClassDecl) → (∀ e ∈ c.withNested, ∀ v ∈ e.fields, P v) → d ∈ c.withNested →
    m ∈ d.methods → ∃ inside : Env, (∀ v ∈ inside.flatten, P v) ∧ m.uses inside ⊆ c.uses env
  | ⟨site, name, fields, methods, nested⟩, hfields, hd, hm => by
    rw [withNested] at hd hfields
    rw [uses]
    obtain ⟨hown, hnested⟩ := List.forall_mem_cons.1 hfields
    have hinside : ∀ v ∈ (fields.foldl Env.declare env.nested).flatten, P v := fun v hv =>
      (Env.mem_flatten_foldl_declare hv).elim (henv v) (hown v)
    rcases List.mem_cons.1 hd with rfl | hd
    · refine ⟨_, hinside, fun use hu => List.mem_append_left _ (List.mem_append_right _ ?_)⟩
      exact List.mem_flatMap.2 ⟨m, hm, hu⟩
    · obtain ⟨inside, hP, hsub⟩ := exists_env_of_mem_withNestedAll hinside nested hnested hd hm
      exact ⟨inside, hP, fun use hu => List.mem_append_right _ (hsub hu)⟩

/-- A method is gone through in an environment of what was in scope and of fields. -/
theorem exists_env_of_mem_withNestedAll {env : Env} (henv : ∀ v ∈ env.flatten, P v) :
    (cs : List ClassDecl) → (∀ e ∈ withNestedAll cs, ∀ v ∈ e.fields, P v) →
    d ∈ withNestedAll cs → m ∈ d.methods →
    ∃ inside : Env, (∀ v ∈ inside.flatten, P v) ∧ m.uses inside ⊆ usesOf env cs
  | [], _, hd, _ => by
    rw [withNestedAll] at hd
    cases hd
  | c :: cs, hfields, hd, hm => by
    rw [withNestedAll] at hd hfields
    rw [usesOf]
    obtain ⟨hc, hcs⟩ := List.forall_mem_append.1 hfields
    rcases List.mem_append.1 hd with hd | hd
    · obtain ⟨inside, hP, hsub⟩ := exists_env_of_mem_withNested henv c hc hd hm
      exact ⟨inside, hP, fun use hu => List.mem_append_left _ (hsub hu)⟩
    · obtain ⟨inside, hP, hsub⟩ := exists_env_of_mem_withNestedAll henv cs hcs hd hm
      exact ⟨inside, hP, fun use hu => List.mem_append_right _ (hsub hu)⟩

end

end ClassDecl

/-- In a method an identifier means a field, a parameter of the method or a variable of its body. -/
theorem CompilationUnit.exists_use_of_visit {u : CompilationUnit} {m : MethodDecl} {site : Site}
    {name : String} (hm : m ∈ u.allMethods) (h : .visit (.ident site name) ∈ m.steps) :
    ∃ use ∈ u.uses, use.site = site ∧ ∀ v, use.target = some v →
      (∃ owner, (.field owner, v) ∈ u.vars) ∨ ∃ kind, .declare kind v ∈ m.steps := by
  obtain ⟨c, hc, hm⟩ := List.mem_flatMap.1 hm
  have hfields : ∀ d ∈ ClassDecl.withNestedAll u.classes, ∀ v ∈ d.fields,
      ∃ owner, (.field owner, v) ∈ u.vars :=
    fun d hd v hv => ⟨d.id, field_mem_vars hd hv⟩
  have hnone : ∀ v ∈ List.flatten ([] : Env), ∃ owner, (.field owner, v) ∈ u.vars := by simp
  obtain ⟨inside, hinside, hsub⟩ :=
    ClassDecl.exists_env_of_mem_withNestedAll hnone u.classes hfields hc hm
  obtain ⟨use, hu, hsite⟩ := @Env.exists_use_of_visit inside _ _ _ h
  refine ⟨use, hsub ((Env.meets_method inside m).uses ▸ hu), hsite, fun v hv => ?_⟩
  rcases Env.target_of_mem_usesAlong hu hv with hv | hd | ⟨c', hc', -⟩
  · exact .inl (hinside v hv)
  · exact .inr hd
  · exact absurd hc' (MethodDecl.openClass_not_mem_steps c' m)

end HandleLint
