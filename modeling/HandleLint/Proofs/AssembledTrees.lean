import HandleLint.Proofs.NodeIds
import HandleLint.Proofs.Occurrence
import HandleLint.Tree.Assembly

/-!
# The numbers of assembled trees

Whatever is assembled, in whatever order the parts are put together, a node has a number of its own,
larger than all numbers inside it, and stands at the place of that number. Trees of every sort are
seen as one here:

* `TreeNode`, `TreeNode.children`: a node, and the nodes directly inside it;
* `Assembly.trees`: what is built so far and is not yet part of anything;
* `Assembly.Grows`: some trees become the children of a new node, which gets the next number;
* `Assembly.Numbered`: what this keeps;
* `Assembly.Splits`: what a step takes from the stacks, or puts there;
* `Assembly.builds_perform`: a step takes trees, forms nodes of them and leaves what it formed;
* `Assembly.Built`: what can be built, with each tree used at most once.
-/

namespace HandleLint

/-- A node of a tree, of whatever sort. A catch clause is none: its parameter and the statements of
its body stand directly in the `try`. -/
inductive TreeNode
  | expr (e : Expr)
  | var (v : VarDecl)
  | stmt (s : Stmt)
  | method (m : MethodDecl)
  | classDecl (c : ClassDecl)

/-- The nodes that a catch clause brings into a `try`. -/
def CatchClause.nodes (c : CatchClause) : List TreeNode :=
  .var c.param :: c.body.map .stmt

namespace TreeNode

def site : TreeNode → Site
  | expr e => e.site
  | var v => v.site
  | stmt s => s.site
  | method m => m.site
  | classDecl c => c.site

/-- The nodes directly inside a node. -/
def children : TreeNode → List TreeNode
  | expr e => e.parts.map expr
  | var v => v.init.toList.map expr
  | stmt (.exprStmt _ value) => [expr value]
  | stmt (.localVar _ v) => [var v]
  | stmt (.returnStmt _ value) => value.toList.map expr
  | stmt (.block _ body) => body.map stmt
  | stmt (.ifStmt _ condition thenBranch elseBranch) =>
    expr condition :: (thenBranch.map stmt ++ (elseBranch.getD []).map stmt)
  | stmt (.whileStmt _ condition body) => expr condition :: body.map stmt
  | stmt (.forStmt _ init condition update body) =>
    init.map stmt ++ (condition.toList.map expr ++ (update.map expr ++ body.map stmt))
  | stmt (.forEachStmt _ v iterated body) => var v :: expr iterated :: body.map stmt
  | stmt (.tryStmt _ resources body catches finallyBlock) =>
    resources.map var ++ (body.map stmt ++
      (catches.flatMap CatchClause.nodes ++ (finallyBlock.getD []).map stmt))
  | stmt (.throwStmt _ value) => [expr value]
  | stmt (.breakStmt _) | stmt (.continueStmt _) => []
  | method m => m.params.map var ++ (m.body.getD []).map stmt
  | classDecl c => c.fields.map var ++ (c.methods.map method ++ c.nested.map classDecl)

/-- `part` stands inside `whole`, at any depth. -/
def Above (whole part : TreeNode) : Prop :=
  Relation.TransGen (fun node child => child ∈ node.children) whole part

/-- `part` is `whole`, or stands inside it at any depth. -/
def Holds (whole part : TreeNode) : Prop :=
  Relation.ReflTransGen (fun node child => child ∈ node.children) whole part

/-- The numbers of a node and of all nodes inside it. -/
def nodeIds : TreeNode → List NodeId
  | expr e => e.nodeIds
  | var v => v.nodeIds
  | stmt s => s.nodeIds
  | method m => m.nodeIds
  | classDecl c => c.withNested.flatMap ClassDecl.nodeIds

/-! ## The numbers of a node and of its children -/

@[simp] theorem flatMap_nodeIds_expr (es : List Expr) :
    (es.map expr).flatMap nodeIds = es.flatMap Expr.nodeIds :=
  List.flatMap_map ..

@[simp] theorem flatMap_nodeIds_var (vs : List VarDecl) :
    (vs.map var).flatMap nodeIds = vs.flatMap VarDecl.nodeIds :=
  List.flatMap_map ..

@[simp] theorem flatMap_nodeIds_method (ms : List MethodDecl) :
    (ms.map method).flatMap nodeIds = ms.flatMap MethodDecl.nodeIds :=
  List.flatMap_map ..

@[simp] theorem flatMap_nodeIds_stmt (body : List Stmt) :
    (body.map stmt).flatMap nodeIds = nodeIdsOf body := by
  induction body with
  | nil => rw [nodeIdsOf, List.map_nil, List.flatMap_nil]
  | cons s rest ih => rw [nodeIdsOf, List.map_cons, List.flatMap_cons, ih, nodeIds]

@[simp] theorem flatMap_nodeIds_nodes (catches : List CatchClause) :
    (catches.flatMap CatchClause.nodes).flatMap nodeIds = nodeIdsOfCatches catches := by
  induction catches with
  | nil => rw [nodeIdsOfCatches, List.flatMap_nil, List.flatMap_nil]
  | cons c rest ih =>
    obtain ⟨param, body⟩ := c
    rw [nodeIdsOfCatches, List.flatMap_cons, List.flatMap_append, ih, CatchClause.nodes,
      List.flatMap_cons, flatMap_nodeIds_stmt]
    rfl

@[simp] theorem flatMap_nodeIds_classDecl (cs : List ClassDecl) :
    (cs.map classDecl).flatMap nodeIds =
      (ClassDecl.withNestedAll cs).flatMap ClassDecl.nodeIds := by
  induction cs with
  | nil => rw [ClassDecl.withNestedAll, List.map_nil, List.flatMap_nil, List.flatMap_nil]
  | cons c cs ih =>
    rw [ClassDecl.withNestedAll, List.map_cons, List.flatMap_cons, ih, List.flatMap_append, nodeIds]

/-- The numbers of a node are its own and those of its children. -/
theorem nodeIds_perm (node : TreeNode) :
    node.nodeIds.Perm (node.site.id :: node.children.flatMap nodeIds) := by
  cases node with
  | expr e =>
    simp only [nodeIds, Expr.nodeIds, children, flatMap_nodeIds_expr]
    rw [Expr.postorder_eq_concat, List.map_append, List.map_flatMap]
    exact List.perm_append_singleton _ _
  | var v =>
    simp only [nodeIds, VarDecl.nodeIds, children, flatMap_nodeIds_expr]
    exact List.perm_append_singleton _ _
  | stmt s =>
    cases s with
    | forEachStmt s v iterated body =>
      simp only [nodeIds, Stmt.nodeIds, children, List.flatMap_cons, flatMap_nodeIds_stmt]
      rw [← List.append_assoc]
      exact (List.perm_append_comm.append_right _).cons _
    | ifStmt s condition thenBranch elseBranch =>
      cases elseBranch <;> simp [nodeIds, Stmt.nodeIds, children, TreeNode.site, Stmt.site]
    | tryStmt s resources body catches finallyBlock =>
      cases finallyBlock <;> simp [nodeIds, Stmt.nodeIds, children, TreeNode.site, Stmt.site]
    | _ => simp [nodeIds, Stmt.nodeIds, children, TreeNode.site, Stmt.site]
  | method m =>
    cases hbody : m.body <;>
      simp [nodeIds, MethodDecl.nodeIds, children, site, MethodDecl.id, hbody]
  | classDecl c =>
    cases c
    simp [nodeIds, ClassDecl.nodeIds, children, site, ClassDecl.id, ClassDecl.withNested]

theorem mem_nodeIds_self (node : TreeNode) : node.site.id ∈ node.nodeIds :=
  node.nodeIds_perm.symm.mem_iff.1 List.mem_cons_self

/-- No node of a tree is missing among its numbers. -/
theorem mem_nodeIds_of_holds {tree node : TreeNode} (h : tree.Holds node) :
    node.site.id ∈ tree.nodeIds := by
  induction h using Relation.ReflTransGen.head_induction_on with
  | refl => exact node.mem_nodeIds_self
  | head hchild _ ih =>
    exact (nodeIds_perm _).mem_iff.2 (List.mem_cons_of_mem _ (List.mem_flatMap_of_mem hchild ih))

/-! ## Nodes in their place -/

/-- A node stands at the place of its number, and its children have smaller numbers. -/
def WellPlaced (node : TreeNode) : Prop :=
  node.site.span = ⟨node.site.id.toUInt64, node.site.id.toUInt64 + 1⟩ ∧
    ∀ child ∈ node.children, child.site.id < node.site.id

/-- Where all nodes of a tree are in their place, numbers get smaller on every way down. -/
theorem id_lt_of_above {tree node part : TreeNode} (h : ∀ n, tree.Holds n → n.WellPlaced)
    (hnode : tree.Holds node) (hpart : node.Above part) : part.site.id < node.site.id := by
  induction hpart with
  | single hchild => exact (h node hnode).2 _ hchild
  | tail habove hchild ih =>
    have hholds : tree.Holds _ := hnode.trans habove.to_reflTransGen
    exact UInt32.lt_trans ((h _ hholds).2 _ hchild) ih

end TreeNode

namespace Assembly

open TreeNode (nodeIds)

variable {n n' : Nat} {forest forest' rest : List TreeNode}

/-- What is built so far and is not yet part of anything. -/
def trees (a : Assembly) : List TreeNode :=
  a.exprs.map .expr ++ (a.stmts.map .stmt ++ (a.vars.map .var ++
    (a.catches.flatMap CatchClause.nodes ++ (a.methods.map .method ++ a.classes.map .classDecl))))

/-- After `n` nodes there is `forest`; after `n'` nodes, each formed with the next number from trees
that were there, there is `forest'`. The order of the trees does not matter. -/
inductive Grows : Nat → List TreeNode → Nat → List TreeNode → Prop
  | done {n : Nat} {forest forest' : List TreeNode} (h : forest.Perm forest') :
    Grows n forest n forest'
  | form {n n' : Nat} {forest rest forest' : List TreeNode} (node : TreeNode)
    (hsite : node.site = siteAt n) (h : forest.Perm (node.children ++ rest))
    (next : Grows (n + 1) (node :: rest) n' forest') : Grows n forest n' forest'

theorem Grows.of_perm {forest₁ : List TreeNode} (h : forest.Perm forest₁)
    (hgrows : Grows n forest₁ n' forest') : Grows n forest n' forest' := by
  cases hgrows with
  | done h₁ => exact .done (h.trans h₁)
  | form node hsite h₁ next => exact .form node hsite (h.trans h₁) next

/-! ## What numbers there are -/

/-- What holds after `n` nodes: the numbers below `n` are given out, each to one node, and as long
as they are different all nodes are in their place. -/
structure Numbered (n : Nat) (forest : List TreeNode) : Prop where
  ids : (forest.flatMap nodeIds).Perm ((List.range n).map UInt32.ofNat)
  placed : n ≤ UInt32.size → ∀ tree ∈ forest, ∀ node, tree.Holds node → node.WellPlaced

theorem siteAt_span (h : n < UInt32.size) :
    (siteAt n).span = ⟨(siteAt n).id.toUInt64, (siteAt n).id.toUInt64 + 1⟩ := by
  simp only [siteAt, UInt32.toUInt64_ofNat' h, UInt64.ofNat_add]
  rfl

namespace Numbered

theorem perm (h : Numbered n forest) (hperm : forest.Perm forest') : Numbered n forest' where
  ids := (hperm.flatMap_right nodeIds).symm.trans h.ids
  placed hn tree htree := h.placed hn tree (hperm.mem_iff.2 htree)

/-- The trees that are there have smaller numbers than the next node. -/
theorem id_lt (h : Numbered n forest) (hn : n < UInt32.size) {tree : TreeNode}
    (htree : tree ∈ forest) : tree.site.id < (siteAt n).id := by
  have hmem : tree.site.id ∈ forest.flatMap nodeIds :=
    List.mem_flatMap_of_mem htree tree.mem_nodeIds_self
  obtain ⟨k, hk, hid⟩ := List.mem_map.1 (h.ids.mem_iff.1 hmem)
  have hkn : k < n := List.mem_range.1 hk
  rw [siteAt, UInt32.lt_ofNat_iff hn, ← hid, UInt32.toNat_ofNat_of_lt' (Nat.lt_trans hkn hn)]
  exact hkn

/-- Forming one node keeps the numbers in order. -/
theorem form {node : TreeNode} (h : Numbered n (node.children ++ rest))
    (hsite : node.site = siteAt n) : Numbered (n + 1) (node :: rest) where
  ids := by
    have hids : ((node :: rest).flatMap nodeIds).Perm
        (node.site.id :: (node.children ++ rest).flatMap nodeIds) := by
      rw [List.flatMap_cons, List.flatMap_append]
      exact node.nodeIds_perm.append_right _
    rw [List.range_succ, List.map_append]
    refine hids.trans (.trans ?_ (List.perm_append_singleton _ _).symm)
    rw [hsite]
    exact h.ids.cons _
  placed hn tree htree part hpart := by
    have hold : ∀ t ∈ node.children ++ rest, ∀ p, t.Holds p → p.WellPlaced :=
      h.placed (Nat.le_of_succ_le hn)
    rcases List.mem_cons.1 htree with rfl | hrest
    · rcases Relation.ReflTransGen.cases_head hpart with rfl | ⟨child, hchild, hholds⟩
      · refine ⟨?_, fun child hchild => ?_⟩
        · rw [hsite]
          exact siteAt_span hn
        · rw [hsite]
          exact h.id_lt hn (List.mem_append_left _ hchild)
      · exact hold child (List.mem_append_left _ hchild) part hholds
    · exact hold tree (List.mem_append_right _ hrest) part hpart

theorem grows (h : Numbered n forest) (hgrows : Grows n forest n' forest') :
    Numbered n' forest' := by
  induction hgrows with
  | done hperm => exact h.perm hperm
  | form node hsite hperm _ ih => exact ih ((h.perm hperm).form hsite)

theorem nodup (h : Numbered n forest) (hn : n ≤ UInt32.size) :
    (forest.flatMap nodeIds).Nodup := by
  refine h.ids.nodup_iff.2 (List.nodup_range.map_on fun i hi j hj hij => ?_)
  have hi : i < UInt32.size := Nat.lt_of_lt_of_le (List.mem_range.1 hi) hn
  have hj : j < UInt32.size := Nat.lt_of_lt_of_le (List.mem_range.1 hj) hn
  rw [← UInt32.toNat_ofNat_of_lt' hi, hij, UInt32.toNat_ofNat_of_lt' hj]

end Numbered

/-! ## Taking parts and leaving results -/

/-- What `a` has is divided among `parts` and `a'`, whatever the order. -/
structure Splits (a parts a' : Assembly) : Prop where
  next : a'.next = a.next
  exprs : a.exprs.Perm (parts.exprs ++ a'.exprs)
  stmts : a.stmts.Perm (parts.stmts ++ a'.stmts)
  vars : a.vars.Perm (parts.vars ++ a'.vars)
  catches : a.catches.Perm (parts.catches ++ a'.catches)
  methods : a.methods.Perm (parts.methods ++ a'.methods)
  classes : a.classes.Perm (parts.classes ++ a'.classes)

theorem Splits.refl (a : Assembly) : Splits a {} a :=
  ⟨rfl, .refl _, .refl _, .refl _, .refl _, .refl _, .refl _⟩

theorem Splits.trees_perm {a parts a' : Assembly} (h : Splits a parts a') :
    a.trees.Perm (parts.trees ++ a'.trees) := by
  classical
  refine List.perm_iff_count.2 fun node => ?_
  have hexprs := (h.exprs.map TreeNode.expr).count_eq node
  have hstmts := (h.stmts.map TreeNode.stmt).count_eq node
  have hvars := (h.vars.map TreeNode.var).count_eq node
  have hcatches := (h.catches.flatMap_right CatchClause.nodes).count_eq node
  have hmethods := (h.methods.map TreeNode.method).count_eq node
  have hclasses := (h.classes.map TreeNode.classDecl).count_eq node
  simp only [trees, List.map_append, List.flatMap_append, List.count_append] at *
  omega

section Work

variable {α β : Type} {x : Work α} {f : α → Work β} {g : Site → Work β} {held : List TreeNode}

/-- What comes out of the work was on the stacks before. -/
def Takes (x : Work α) (parts : α → Assembly) : Prop :=
  ∀ ⦃a r a'⦄, x.run a = some (r, a') → Splits a (parts r) a'

/-- The work puts something on the stacks. -/
def Leaves (x : Work α) (results : Assembly) : Prop :=
  ∀ ⦃a r a'⦄, x.run a = some (r, a') → Splits a' results a

theorem takeTop?_perm {n : Nat} {stack taken below : List α}
    (h : takeTop? n stack = some (taken, below)) : stack.Perm (taken ++ below) := by
  unfold takeTop? at h
  split at h
  · cases h
    nth_rewrite 1 [← List.take_append_drop n stack]
    exact (List.reverse_perm _).symm.append_right _
  · cases h

theorem takes_popExpr : Takes popExpr fun e => { exprs := [e] } := by
  rintro ⟨_, _ | ⟨e, exprs⟩, _, _, _, _, _⟩ r a' ⟨⟩
  exact { Splits.refl _ with exprs := .refl _ }

theorem takes_popVar : Takes popVar fun v => { vars := [v] } := by
  rintro ⟨_, _, _, _ | ⟨v, vars⟩, _, _, _⟩ r a' ⟨⟩
  exact { Splits.refl _ with vars := .refl _ }

theorem takes_popExprs (n : Nat) : Takes (popExprs n) fun exprs => { exprs } := by
  intro a r a' h
  obtain ⟨_, htop, ⟨⟩⟩ := Option.map_eq_some_iff.1 h
  exact { Splits.refl a with exprs := takeTop?_perm htop }

theorem takes_popStmts (n : Nat) : Takes (popStmts n) fun stmts => { stmts } := by
  intro a r a' h
  obtain ⟨_, htop, ⟨⟩⟩ := Option.map_eq_some_iff.1 h
  exact { Splits.refl a with stmts := takeTop?_perm htop }

theorem takes_popVars (n : Nat) : Takes (popVars n) fun vars => { vars } := by
  intro a r a' h
  obtain ⟨_, htop, ⟨⟩⟩ := Option.map_eq_some_iff.1 h
  exact { Splits.refl a with vars := takeTop?_perm htop }

theorem takes_popCatches (n : Nat) : Takes (popCatches n) fun catches => { catches } := by
  intro a r a' h
  obtain ⟨_, htop, ⟨⟩⟩ := Option.map_eq_some_iff.1 h
  exact { Splits.refl a with catches := takeTop?_perm htop }

theorem takes_popMethods (n : Nat) : Takes (popMethods n) fun methods => { methods } := by
  intro a r a' h
  obtain ⟨_, htop, ⟨⟩⟩ := Option.map_eq_some_iff.1 h
  exact { Splits.refl a with methods := takeTop?_perm htop }

theorem takes_popClasses (n : Nat) : Takes (popClasses n) fun classes => { classes } := by
  intro a r a' h
  obtain ⟨_, htop, ⟨⟩⟩ := Option.map_eq_some_iff.1 h
  exact { Splits.refl a with classes := takeTop?_perm htop }

theorem run_bind_eq_some {a a' : Assembly} {r : β} (h : (x >>= f).run a = some (r, a')) :
    ∃ y a₁, x.run a = some (y, a₁) ∧ (f y).run a₁ = some (r, a') := by
  obtain ⟨⟨y, a₁⟩, hx, hf⟩ := Option.bind_eq_some_iff.1 h
  exact ⟨y, a₁, hx, hf⟩

theorem takes_popExprIf (taken : Bool) :
    Takes (popExprIf taken) fun value => { exprs := value.toList } := by
  intro a r a' h
  cases taken with
  | false =>
    cases h
    exact .refl a
  | true =>
    obtain ⟨e, a₁, he, ⟨⟩⟩ := run_bind_eq_some h
    exact takes_popExpr he

theorem takes_popStmtsIf (count : Option Nat) :
    Takes (popStmtsIf count) fun body => { stmts := body.getD [] } := by
  intro a r a' h
  cases count with
  | none =>
    cases h
    exact .refl a
  | some n =>
    obtain ⟨body, a₁, hbody, ⟨⟩⟩ := run_bind_eq_some h
    exact takes_popStmts n hbody

theorem leaves_pushExpr (e : Expr) : Leaves (pushExpr e) { exprs := [e] } := by
  rintro a r a' ⟨⟩
  exact { Splits.refl a with exprs := .refl _ }

theorem leaves_pushStmt (s : Stmt) : Leaves (pushStmt s) { stmts := [s] } := by
  rintro a r a' ⟨⟩
  exact { Splits.refl a with stmts := .refl _ }

theorem leaves_pushVar (v : VarDecl) : Leaves (pushVar v) { vars := [v] } := by
  rintro a r a' ⟨⟩
  exact { Splits.refl a with vars := .refl _ }

theorem leaves_pushCatch (c : CatchClause) : Leaves (pushCatch c) { catches := [c] } := by
  rintro a r a' ⟨⟩
  exact { Splits.refl a with catches := .refl _ }

theorem leaves_pushMethod (m : MethodDecl) : Leaves (pushMethod m) { methods := [m] } := by
  rintro a r a' ⟨⟩
  exact { Splits.refl a with methods := .refl _ }

theorem leaves_pushClass (c : ClassDecl) : Leaves (pushClass c) { classes := [c] } := by
  rintro a r a' ⟨⟩
  exact { Splits.refl a with classes := .refl _ }

/-! ## What a step does -/

/-- Work that starts with some trees in hand only forms nodes, from those and from what is on the
stacks, and loses none. -/
def Builds (held : List TreeNode) (x : Work α) : Prop :=
  ∀ ⦃a r a'⦄, x.run a = some (r, a') → Grows a.next (held ++ a.trees) a'.next a'.trees

namespace Builds

theorem take {parts : α → Assembly} (hx : Takes x parts)
    (hf : ∀ r, Builds ((parts r).trees ++ held) (f r)) : Builds held (x >>= f) := by
  intro a r a' h
  obtain ⟨y, a₁, hy, hr⟩ := run_bind_eq_some h
  rw [← (hx hy).next]
  refine .of_perm ?_ (hf y hr)
  rw [List.append_assoc]
  exact ((hx hy).trees_perm.append_left held).trans (List.perm_append_comm_assoc ..)

/-- With a new number, some of what is in hand becomes a node. -/
theorem form {rest : List TreeNode} (node : Site → TreeNode) (hsite : ∀ s, (node s).site = s)
    (hheld : ∀ s, held.Perm ((node s).children ++ rest))
    (hg : ∀ s, Builds (node s :: rest) (g s)) : Builds held (fresh >>= g) := by
  intro a r a' h
  obtain ⟨s, a₁, hs, hr⟩ := run_bind_eq_some h
  cases hs
  refine .form (node (siteAt a.next)) (hsite _) ?_ (hg _ hr)
  exact ((hheld _).append_right _).trans (.of_eq (List.append_assoc ..))

theorem leave {results : Assembly} (hx : Leaves x results) (hheld : held.Perm results.trees) :
    Builds held x := by
  intro a r a' h
  rw [(hx h).next]
  exact .done ((hheld.append_right _).trans (hx h).trees_perm.symm)

/-- With a new number, all that is in hand becomes a node. -/
theorem formAll (node : Site → TreeNode) (hsite : ∀ s, (node s).site = s)
    (hheld : ∀ s, held.Perm (node s).children) (hg : ∀ s, Builds [node s] (g s)) :
    Builds held (fresh >>= g) := by
  refine form node hsite (fun s => ?_) hg
  rw [List.append_nil]
  exact hheld s

theorem expr (node : Site → Expr) (hsite : ∀ s, (node s).site = s)
    (hheld : ∀ s, held.Perm (TreeNode.expr (node s)).children) :
    Builds held (fresh >>= fun s => pushExpr (node s)) :=
  formAll (fun s => .expr (node s)) hsite hheld fun s => leave (leaves_pushExpr (node s)) (.refl _)

theorem stmt (node : Site → Stmt) (hsite : ∀ s, (node s).site = s)
    (hheld : ∀ s, held.Perm (TreeNode.stmt (node s)).children) :
    Builds held (fresh >>= fun s => pushStmt (node s)) :=
  formAll (fun s => .stmt (node s)) hsite hheld fun s => leave (leaves_pushStmt (node s)) (.refl _)

end Builds

/-- What a step takes ends up in what it leaves. -/
theorem builds_perform (step : Step) : Builds [] (perform step) := by
  cases step with
  | null => exact .expr .null (fun _ => rfl) fun _ => .refl _
  | this => exact .expr .this (fun _ => rfl) fun _ => .refl _
  | ident name => exact .expr (.ident · name) (fun _ => rfl) fun _ => .refl _
  | string value => exact .expr (.string · value) (fun _ => rfl) fun _ => .refl _
  | field name =>
    refine .take takes_popExpr fun object => ?_
    exact .expr (.field · object name) (fun _ => rfl) fun _ => .refl _
  | call method args =>
    refine .take (takes_popExprs args) fun args => .take takes_popExpr fun receiver => ?_
    refine .expr (.call · (some receiver) method args) (fun _ => rfl) fun _ => ?_
    simp [trees, TreeNode.children, Expr.parts]
  | bareCall method args =>
    refine .take (takes_popExprs args) fun args => ?_
    refine .expr (.call · none method args) (fun _ => rfl) fun _ => ?_
    simp [trees, TreeNode.children, Expr.parts]
  | new type args =>
    refine .take (takes_popExprs args) fun args => ?_
    refine .expr (.new · type args) (fun _ => rfl) fun _ => ?_
    simp [trees, TreeNode.children, Expr.parts]
  | assign =>
    refine .take takes_popExpr fun value => .take takes_popExpr fun target => ?_
    exact .expr (.assign · target value) (fun _ => rfl) fun _ => .refl _
  | binary op =>
    refine .take takes_popExpr fun right => .take takes_popExpr fun left => ?_
    exact .expr (.binary · op left right) (fun _ => rfl) fun _ => .refl _
  | conditional =>
    refine .take takes_popExpr fun whenFalse => .take takes_popExpr fun whenTrue => ?_
    refine .take takes_popExpr fun condition => ?_
    exact .expr (.conditional · condition whenTrue whenFalse) (fun _ => rfl) fun _ => .refl _
  | var type name hasInit =>
    refine .take (takes_popExprIf hasInit) fun init => ?_
    refine .formAll (fun site => .var { site, name, type, init }) (fun _ => rfl) (fun _ => ?_)
      fun _ => .leave (leaves_pushVar _) (.refl _)
    simp [trees, TreeNode.children]
  | param type name =>
    exact .formAll (fun site => .var { site, name, type, init := none }) (fun _ => rfl)
      (fun _ => .refl _) fun _ => .leave (leaves_pushVar _) (.refl _)
  | method name params returnType body =>
    refine .take (takes_popVars params) fun params => .take (takes_popStmts body) fun body => ?_
    refine .formAll (fun site => .method { site, name, params, returnType, body := some body })
      (fun _ => rfl) (fun _ => ?_) fun _ => .leave (leaves_pushMethod _) (.refl _)
    simpa [trees, TreeNode.children] using List.perm_append_comm
  | classDecl name fields methods nested =>
    refine .take (takes_popClasses nested) fun nested => ?_
    refine .take (takes_popMethods methods) fun methods => ?_
    refine .take (takes_popVars fields) fun fields => ?_
    refine .formAll (fun site => .classDecl { site, name, fields, methods, nested }) (fun _ => rfl)
      (fun _ => ?_) fun _ => .leave (leaves_pushClass _) (.refl _)
    simp [trees, TreeNode.children]
  | localVar type name hasInit =>
    refine .take (takes_popExprIf hasInit) fun init => ?_
    refine .formAll (fun site => .var { site, name, type, init }) (fun _ => rfl) (fun _ => ?_)
      fun site => .stmt (.localVar · { site, name, type, init }) (fun _ => rfl) fun _ => .refl _
    simp [trees, TreeNode.children]
  | exprStmt =>
    refine .take takes_popExpr fun value => ?_
    exact .stmt (.exprStmt · value) (fun _ => rfl) fun _ => .refl _
  | throwStmt =>
    refine .take takes_popExpr fun value => ?_
    exact .stmt (.throwStmt · value) (fun _ => rfl) fun _ => .refl _
  | assignStmt name =>
    -- The value is still in hand when the identifier is formed.
    refine .take takes_popExpr fun value => ?_
    refine .form (fun s => .expr (.ident s name)) (fun _ => rfl) (fun _ => .refl _) fun s => ?_
    refine .formAll (fun t => .expr (.assign t (.ident s name) value)) (fun _ => rfl)
      (fun _ => .refl _) fun t => ?_
    exact .stmt (.exprStmt · (.assign t (.ident s name) value)) (fun _ => rfl) fun _ => .refl _
  | callStmt name method =>
    refine .formAll (fun s => .expr (.ident s name)) (fun _ => rfl) (fun _ => .refl _) fun s => ?_
    refine .formAll (fun t => .expr (.call t (some (.ident s name)) method [])) (fun _ => rfl)
      (fun _ => .refl _) fun t => ?_
    exact .stmt (.exprStmt · (.call t (some (.ident s name)) method [])) (fun _ => rfl)
      fun _ => .refl _
  | returnStmt hasValue =>
    refine .take (takes_popExprIf hasValue) fun value => ?_
    refine .stmt (.returnStmt · value) (fun _ => rfl) fun _ => ?_
    simp [trees, TreeNode.children]
  | returnIdent name =>
    refine .formAll (fun s => .expr (.ident s name)) (fun _ => rfl) (fun _ => .refl _) fun s => ?_
    exact .stmt (.returnStmt · (some (.ident s name))) (fun _ => rfl) fun _ => .refl _
  | block body =>
    refine .take (takes_popStmts body) fun body => ?_
    refine .stmt (.block · body) (fun _ => rfl) fun _ => ?_
    simp [trees, TreeNode.children]
  | ifStmt thenBranch elseBranch =>
    refine .take (takes_popStmtsIf elseBranch) fun elseBranch => ?_
    refine .take (takes_popStmts thenBranch) fun thenBranch => ?_
    refine .take takes_popExpr fun condition => ?_
    refine .stmt (.ifStmt · condition thenBranch elseBranch) (fun _ => rfl) fun _ => ?_
    simp [trees, TreeNode.children]
  | whileStmt body =>
    refine .take (takes_popStmts body) fun body => .take takes_popExpr fun condition => ?_
    refine .stmt (.whileStmt · condition body) (fun _ => rfl) fun _ => ?_
    simp [trees, TreeNode.children]
  | forEachStmt body =>
    refine .take (takes_popStmts body) fun body => .take takes_popExpr fun iterated => ?_
    refine .take takes_popVar fun var => ?_
    refine .stmt (.forEachStmt · var iterated body) (fun _ => rfl) fun _ => ?_
    simp [trees, TreeNode.children]
  | tryStmt resources body catches finallyBlock =>
    refine .take (takes_popStmtsIf finallyBlock) fun finallyBlock => ?_
    refine .take (takes_popCatches catches) fun catches => ?_
    refine .take (takes_popStmts body) fun body => ?_
    refine .take (takes_popVars resources) fun resources => ?_
    refine .stmt (.tryStmt · resources body catches finallyBlock) (fun _ => rfl) fun _ => ?_
    simp [trees, TreeNode.children]
  | catchClause type name body =>
    refine .take (takes_popStmts body) fun body => ?_
    refine .form (fun site => .var { site, name, type, init := none }) (fun _ => rfl)
      (fun _ => .refl _) fun site => .leave (leaves_pushCatch _) ?_
    simp [trees, CatchClause.nodes, CatchClause.param, CatchClause.body]

end Work

/-! ## What can be built -/

/-- What some steps build from nothing. Between two steps the stacks may be rearranged, so a step
can take any parts that are left; a part that is taken is not left any more. -/
inductive Built : Assembly → Prop
  | start : Built {}
  | rearrange {a a' : Assembly} (h : Built a) (hsplits : Splits a {} a') : Built a'
  | step {a a' : Assembly} {site : Site} (step : Step) (h : Built a)
    (hrun : (perform step).run a = some (site, a')) : Built a'

namespace Built

variable {a a' : Assembly}

theorem numbered (h : Built a) : Numbered a.next a.trees := by
  induction h with
  | start => exact { ids := .refl _, placed := fun _ _ htree => absurd htree List.not_mem_nil }
  | rearrange _ hsplits ih =>
    rw [hsplits.next]
    exact ih.perm hsplits.trees_perm
  | step step _ hrun ih => exact ih.grows (builds_perform step hrun)

theorem of_performAll {steps : List Step} {sites : List Site} (h : Built a)
    (hrun : (performAll steps).run a = some (sites, a')) : Built a' := by
  unfold performAll at hrun
  induction steps generalizing a sites with
  | nil =>
    cases hrun
    exact h
  | cons step steps ih =>
    rw [List.mapM_cons] at hrun
    obtain ⟨site, a₁, hstep, hrest⟩ := run_bind_eq_some hrun
    obtain ⟨rest, a₂, hsteps, ⟨⟩⟩ := run_bind_eq_some hrest
    exact ih (h.step step hstep) hsteps

end Built

/-- However fewer than 2³² nodes are put together, each used at most once: no two of them have the
same number, every node stands at the place of its number, and its number is larger than all numbers
inside it. No unit of classes that are left has two nodes with the same number. -/
theorem numbers_of_built {a : Assembly} (h : Built a) (hcount : a.next < UInt32.size) :
    (a.trees.flatMap nodeIds).length = a.next ∧ (a.trees.flatMap nodeIds).Nodup ∧
      (∀ tree ∈ a.trees, ∀ node, tree.Holds node → node.site.id ∈ tree.nodeIds ∧
        node.site.span = ⟨node.site.id.toUInt64, node.site.id.toUInt64 + 1⟩ ∧
          ∀ part, node.Above part → part.site.id < node.site.id) ∧
      ∀ u : CompilationUnit, u.classes.Subperm a.classes → u.nodeIds.Nodup := by
  have hnumbered := h.numbered
  have hnodup := hnumbered.nodup (Nat.le_of_lt hcount)
  refine ⟨?_, hnodup, fun tree htree node hnode => ?_, fun u hu => ?_⟩
  · rw [hnumbered.ids.length_eq, List.length_map, List.length_range]
  · have hplaced := hnumbered.placed (Nat.le_of_lt hcount) tree htree
    exact ⟨TreeNode.mem_nodeIds_of_holds hnode, (hplaced node hnode).1,
      fun part => TreeNode.id_lt_of_above hplaced hnode⟩
  · obtain ⟨classes, hperm, hsub⟩ := hu
    have hids : u.nodeIds = (u.classes.map TreeNode.classDecl).flatMap nodeIds :=
      (TreeNode.flatMap_nodeIds_classDecl u.classes).symm
    have htrees : (a.classes.map TreeNode.classDecl).Sublist a.trees := by
      simp only [trees, ← List.append_assoc]
      exact List.sublist_append_right _ _
    rw [hids]
    refine ((hperm.map _).flatMap_right nodeIds).nodup_iff.1 ?_
    exact hnodup.sublist (((hsub.map _).trans htrees).flatMap nodeIds)

/-- A class with a member class, a field and a method that closes it in a `try`; an identifier is
left over. -/
def nestedSteps : List Step :=
  [.classDecl "Inner" 0 0 0, .var "Stream" "in" false, .ident "spare", .callStmt "in" "close",
    .returnIdent "in", .catchClause "IOException" "e" 1, .tryStmt 0 1 1 none,
    .method "read" 0 (some "Stream") 1, .classDecl "Outer" 1 1 1]

theorem numbers_of_built_nested :
    ∃ sites a, (performAll nestedSteps).run {} = some (sites, a) ∧ a.next = 12 ∧
      (a.unit none []).nodeIds = [11, 1, 10, 9, 5, 3, 4, 8, 7, 6, 0] ∧
      (a.unit none []).nodeIds.Nodup := by
  have hrun : ((performAll nestedSteps).run {}).map
      (fun r => (r.2.next, (r.2.unit none []).nodeIds)) =
        some (12, [11, 1, 10, 9, 5, 3, 4, 8, 7, 6, 0]) := by
    decide +kernel
  obtain ⟨⟨sites, a⟩, hrun, hresult⟩ := Option.map_eq_some_iff.1 hrun
  obtain ⟨hnext, hids⟩ := Prod.mk.inj hresult
  have hcount : a.next < UInt32.size := by
    rw [hnext]
    decide
  refine ⟨sites, a, hrun, hnext, hids, ?_⟩
  exact (numbers_of_built (.of_performAll .start hrun) hcount).2.2.2 _ (List.reverse_perm _).subperm

end Assembly

end HandleLint
