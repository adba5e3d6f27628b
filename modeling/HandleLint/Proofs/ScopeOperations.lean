import HandleLint.Proofs.ScopeStack

/-!
# Any operations on a scope tree

A scope tree keeps every scope that was ever opened and finds its way by numbers. Seen through its
answers it is a stack of frames, whatever is asked of it and in whatever order, also when more
scopes are left than were entered or a name is defined twice.

* `ScopeOp`, `ScopeAnswer`: what is asked, and what is answered;
* `FrameStack`: the stack, whose frames are gone once they are popped;
* `FrameStack.Shows`: the scopes from the current one outwards hold what the frames hold;
* `FrameStack.Shows.perform`: one operation;
* `ScopeTree.answers_eq_answers`: any number of them.
-/

namespace HandleLint

inductive ScopeOp
  | enter (kind : ScopeKind)
  | leave
  | define (name : String) (symbol : SymbolId) (span : Span)
  | lookup (name : String)
  | enclosingClasses

inductive ScopeAnswer
  | opened (id : ScopeId)
  | done
  | refused (problem : Problem)
  | found (symbol : Option SymbolId)
  | classes (decls : List NodeId)
  deriving DecidableEq, Repr

namespace ScopeTree

def perform (t : ScopeTree) : ScopeOp → ScopeAnswer × ScopeTree
  | .enter kind => (.opened t.next, t.enter kind)
  | .leave => (.done, t.leave)
  | .define name symbol span =>
    match t.define name symbol span with
    | .ok t' => (.done, t')
    | .error problem => (.refused problem, t)
  | .lookup name => (.found (t.lookup? name), t)
  | .enclosingClasses => (.classes t.enclosingClasses, t)

/-- The answers to operations one after the other. -/
def answers (t : ScopeTree) : List ScopeOp → List ScopeAnswer
  | [] => []
  | op :: rest => (t.perform op).1 :: answers (t.perform op).2 rest

/-- The tree after operations. -/
def after (t : ScopeTree) (ops : List ScopeOp) : ScopeTree :=
  ops.foldl (fun t op => (t.perform op).2) t

end ScopeTree

/-! ## A stack of frames -/

/-- A scope on its own: what it is the scope of, and the names defined in it, in order. -/
structure ScopeFrame where
  kind : ScopeKind
  names : List (String × Binding) := []

/-- The open frames, the innermost first, and how many were ever pushed. -/
structure FrameStack where
  frames : List ScopeFrame := []
  pushed : Nat := 0

namespace FrameStack

/-- Defines a name in the innermost frame. A name that is there already is refused, with the place
of its definition; without a frame nothing is defined. -/
def define (stack : FrameStack) (name : String) (b : Binding) : ScopeAnswer × FrameStack :=
  match stack.frames with
  | [] => (.done, stack)
  | top :: outer =>
    match top.names.lookup name with
    | some first => (.refused ⟨.duplicateDefinition name first.span, b.span⟩, stack)
    | none =>
      (.done, { stack with frames := { top with names := top.names ++ [(name, b)] } :: outer })

def perform (stack : FrameStack) : ScopeOp → ScopeAnswer × FrameStack
  | .enter kind =>
    (.opened stack.pushed, { frames := { kind } :: stack.frames, pushed := stack.pushed + 1 })
  | .leave => (.done, { stack with frames := stack.frames.tail })
  | .define name symbol span => stack.define name ⟨symbol, span⟩
  | .lookup name =>
    (.found ((stack.frames.findSome? (·.names.lookup name)).map (·.symbol)), stack)
  | .enclosingClasses => (.classes (stack.frames.filterMap (·.kind.class?)), stack)

def answers (stack : FrameStack) : List ScopeOp → List ScopeAnswer
  | [] => []
  | op :: rest => (stack.perform op).1 :: answers (stack.perform op).2 rest

def after (stack : FrameStack) (ops : List ScopeOp) : FrameStack :=
  ops.foldl (fun stack op => (stack.perform op).2) stack

end FrameStack

/-! ## The tree as a stack -/

/-- A scope is of the kind of a frame and binds the names of the frame. -/
structure ScopeFrame.Shows (f : ScopeFrame) (s : Scope) : Prop where
  kind : s.kind = f.kind
  names : ∀ name, s.bindings.get? name = f.names.lookup name

theorem ScopeFrame.Shows.define {f : ScopeFrame} {s : Scope} (h : f.Shows s) {name : String}
    (hnew : f.names.lookup name = none) (b : Binding) :
    ScopeFrame.Shows { f with names := f.names ++ [(name, b)] }
      { s with bindings := s.bindings.insertIfNew name b } where
  kind := h.kind
  names := by
    intro other
    rw [Table.get?_insertIfNew, List.lookup_append, h.names name, h.names other, hnew]
    by_cases hn : other = name
    · subst hn
      simp [hnew]
    · have hne : (other == name) = false := beq_false_of_ne hn
      simp [hne, List.lookup_cons]

/-- The frames of a stack are the scopes from the current one outwards, and as many frames were
pushed as scopes were opened. -/
structure FrameStack.Shows (stack : FrameStack) (t : ScopeTree) : Prop where
  pushed : stack.pushed = t.next
  frames : List.Forall₂ ScopeFrame.Shows stack.frames t.chain

namespace FrameStack.Shows

variable {t : ScopeTree} {stack : FrameStack}

theorem empty : Shows {} {} :=
  ⟨rfl, .nil⟩

theorem enter (h : stack.Shows t) (kind : ScopeKind) :
    Shows { frames := { kind } :: stack.frames, pushed := stack.pushed + 1 } (t.enter kind) where
  pushed := congrArg (· + 1) h.pushed
  frames := by
    rw [ScopeTree.chain_enter]
    exact .cons ⟨rfl, fun _ => rfl⟩ h.frames

theorem leave (h : stack.Shows t) :
    Shows { stack with frames := stack.frames.tail } t.leave where
  pushed := h.pushed
  frames := by
    rw [ScopeTree.chain_leave]
    exact forall₂_tail h.frames

theorem lookup (h : stack.Shows t) (name : String) :
    t.binding? name = stack.frames.findSome? (·.names.lookup name) := by
  have hnames := h.frames.flip.imp fun s f hs => hs.names name
  rw [ScopeTree.binding?, ← List.head?_filterMap, filterMap_eq_of_forall₂ hnames,
    List.head?_filterMap]

theorem enclosingClasses (h : stack.Shows t) :
    t.enclosingClasses = stack.frames.filterMap (·.kind.class?) := by
  have hkinds := h.frames.flip.imp fun s f hs => congrArg ScopeKind.class? hs.kind
  rw [ScopeTree.enclosingClasses_eq, filterMap_eq_of_forall₂ hkinds]

/-- Defining a name gives the same answer, and what it leaves behind looks the same. -/
theorem define (h : stack.Shows t) (name : String) (symbol : SymbolId) (span : Span) :
    (t.perform (.define name symbol span)).1 = (stack.define name ⟨symbol, span⟩).1 ∧
      (stack.define name ⟨symbol, span⟩).2.Shows (t.perform (.define name symbol span)).2 := by
  have hbound := t.chain_declared name ⟨symbol, span⟩
  have hframes := h.frames
  rw [ScopeTree.declared] at hbound
  rw [ScopeTree.perform, FrameStack.define]
  rw [ScopeTree.define] at hbound ⊢
  cases hchain : t.chain with
  | nil =>
    rw [hchain] at hframes
    rw [List.forall₂_nil_right_iff.1 hframes]
    exact ⟨rfl, h⟩
  | cons s outer =>
    rw [hchain] at hframes hbound
    obtain ⟨f, rest, hf, houter, hstack⟩ := List.forall₂_cons_right_iff.1 hframes
    simp only [hstack, hf.names name] at hbound ⊢
    cases hname : f.names.lookup name with
    | some first => exact ⟨rfl, h⟩
    | none =>
      simp only [hname] at hbound ⊢
      refine ⟨trivial, ?_, ?_⟩
      · rw [h.pushed]
        exact (List.length_map _).symm
      · rw [hbound]
        exact .cons (hf.define hname _) houter

/-- One operation: the answers are the same, and the tree still shows the stack. -/
theorem perform (h : stack.Shows t) (op : ScopeOp) :
    (t.perform op).1 = (stack.perform op).1 ∧ (stack.perform op).2.Shows (t.perform op).2 := by
  cases op with
  | enter kind => exact ⟨congrArg ScopeAnswer.opened h.pushed.symm, h.enter kind⟩
  | leave => exact ⟨rfl, h.leave⟩
  | define name symbol span => exact h.define name symbol span
  | lookup name =>
    refine ⟨?_, h⟩
    rw [ScopeTree.perform, FrameStack.perform, ScopeTree.lookup?, h.lookup]
  | enclosingClasses => exact ⟨congrArg ScopeAnswer.classes h.enclosingClasses, h⟩

/-- Any number of operations. -/
theorem answers (h : stack.Shows t) (ops : List ScopeOp) :
    t.answers ops = stack.answers ops ∧ (stack.after ops).Shows (t.after ops) := by
  induction ops generalizing t stack with
  | nil => exact ⟨rfl, h⟩
  | cons op rest ih =>
    obtain ⟨hanswer, hshows⟩ := h.perform op
    obtain ⟨hanswers, hafter⟩ := ih hshows
    refine ⟨?_, hafter⟩
    rw [ScopeTree.answers, FrameStack.answers, hanswer, hanswers]

end FrameStack.Shows

/-- An operation that is refused changes nothing. -/
theorem ScopeTree.perform_refused {t : ScopeTree} {op : ScopeOp} {problem : Problem}
    (h : (t.perform op).1 = .refused problem) : (t.perform op).2 = t := by
  cases op with
  | define name symbol span =>
    rw [perform] at h ⊢
    cases hd : t.define name symbol span with
    | ok t' =>
      rw [hd] at h
      cases h
    | error problem => rfl
  | lookup name => rfl
  | enclosingClasses => rfl
  | _ => cases h

/-- A scope tree answers like a stack of frames, whatever operations are performed on a new one.
After them
* the scopes that can be seen are the frames that were not popped, in their order and with their
  names;
* outside of all scopes, leaving a scope and defining a name change nothing, and the latter
  succeeds;
* an operation that is refused changes nothing;
* parents have smaller numbers than their children, and the way from the current scope from number
  to number ends and meets the scopes that can be seen. -/
theorem ScopeTree.answers_eq_answers (ops : List ScopeOp) :
    let t := ScopeTree.after {} ops
    let stack := FrameStack.after {} ops
    ScopeTree.answers {} ops = FrameStack.answers {} ops ∧
    List.Forall₂ ScopeFrame.Shows stack.frames t.chain ∧
    (stack.frames = [] →
      t.leave = t ∧ ∀ name symbol span, t.define name symbol span = .ok t) ∧
    (∀ op problem, (t.perform op).1 = .refused problem → (t.perform op).2 = t) ∧
    (∀ s ∈ t.scopes, ∀ p ∈ s.parent, p < s.id) ∧ t.Way t.current t.chain := by
  intro t stack
  obtain ⟨hanswers, hshows⟩ := FrameStack.Shows.empty.answers ops
  refine ⟨hanswers, hshows.frames, fun hempty => ?_, fun op problem => perform_refused,
    t.parent_lt, t.way_chain⟩
  have hchain : t.chain = [] := by
    have hframes := hshows.frames
    rw [hempty] at hframes
    exact List.forall₂_nil_left_iff.1 hframes
  refine ⟨?_, fun name symbol span => ?_⟩
  · exact leave_eq_self hchain
  · rw [define, hchain]

example :
    ScopeTree.answers {} [.leave, .define "x" 0 {}, .enter (.classBody 7), .define "x" 1 ⟨2, 3⟩,
      .define "x" 2 ⟨5, 6⟩, .enter .block, .define "x" 3 ⟨8, 9⟩, .lookup "x", .leave, .lookup "x",
      .leave, .leave, .lookup "x", .enter .block, .enclosingClasses] =
    [.done, .done, .opened 0, .done, .refused ⟨.duplicateDefinition "x" ⟨2, 3⟩, ⟨5, 6⟩⟩, .opened 1,
      .done, .found (some 3), .done, .found (some 1), .done, .done, .found none, .opened 2,
      .classes []] := by
  decide

end HandleLint
