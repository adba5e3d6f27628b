import HandleLint.Proofs.SymbolOrigins

/-!
# Another body for a method

A unit in which the body of one method is replaced. Types and the symbols of classes and members
stay what they are, and the unit is gone through in the same segments, but for the one method.

* `CompilationUnit.withBody`: the unit with another body for a method;
* `CompilationUnit.vocabulary_withBody`, `CompilationUnit.announced_withBody`: what stays;
* `Segment`, `ClassDecl.segmentsOf`: the segments in which a unit is gone through;
* `ClassDecl.segmentsOf_withBodyAll`, `Segment.run_withBody`: the segments of the other unit.
-/

namespace HandleLint

open HandleLint.Resolver (Step)

/-! ## Replacing a body -/

/-- A method with another body, if it has the given number. -/
def MethodDecl.withBody (k : NodeId) (body : Option (List Stmt)) (m : MethodDecl) : MethodDecl :=
  if m.id = k then { m with body } else m

namespace ClassDecl

mutual

/-- A class with another body for the method of a given number, in it or in a member class. -/
def withBody (k : NodeId) (body : Option (List Stmt)) : ClassDecl → ClassDecl
  | ⟨site, name, fields, methods, nested⟩ =>
    ⟨site, name, fields, methods.map (MethodDecl.withBody k body), withBodyAll k body nested⟩

def withBodyAll (k : NodeId) (body : Option (List Stmt)) : List ClassDecl → List ClassDecl
  | [] => []
  | c :: cs => withBody k body c :: withBodyAll k body cs

end

end ClassDecl

/-- A unit with another body for the method of a given number. -/
def CompilationUnit.withBody (u : CompilationUnit) (k : NodeId) (body : Option (List Stmt)) :
    CompilationUnit :=
  { u with classes := ClassDecl.withBodyAll k body u.classes }

section

variable {k : NodeId} {body : Option (List Stmt)}

namespace MethodDecl

theorem withBody_of_ne {m : MethodDecl} (h : m.id ≠ k) : m.withBody k body = m :=
  if_neg h

@[simp] theorem site_withBody (m : MethodDecl) : (m.withBody k body).site = m.site := by
  unfold withBody
  split <;> rfl

@[simp] theorem name_withBody (m : MethodDecl) : (m.withBody k body).name = m.name := by
  unfold withBody
  split <;> rfl

@[simp] theorem params_withBody (m : MethodDecl) : (m.withBody k body).params = m.params := by
  unfold withBody
  split <;> rfl

@[simp] theorem returnType_withBody (m : MethodDecl) :
    (m.withBody k body).returnType = m.returnType := by
  unfold withBody
  split <;> rfl

end MethodDecl

namespace ClassDecl

@[simp] theorem site_withBody (c : ClassDecl) : (c.withBody k body).site = c.site := by
  cases c
  rw [withBody]

@[simp] theorem id_withBody (c : ClassDecl) : (c.withBody k body).id = c.id :=
  congrArg Site.id c.site_withBody

@[simp] theorem name_withBody (c : ClassDecl) : (c.withBody k body).name = c.name := by
  cases c
  rw [withBody]

@[simp] theorem fields_withBody (c : ClassDecl) : (c.withBody k body).fields = c.fields := by
  cases c
  rw [withBody]

@[simp] theorem methods_withBody (c : ClassDecl) :
    (c.withBody k body).methods = c.methods.map (MethodDecl.withBody k body) := by
  cases c
  rw [withBody]

mutual

theorem withNested_withBody : (c : ClassDecl) →
    (c.withBody k body).withNested = c.withNested.map (withBody k body)
  | ⟨site, name, fields, methods, nested⟩ => by
    rw [withBody, withNested, withNested, withNestedAll_withBodyAll nested, List.map_cons, withBody]

theorem withNestedAll_withBodyAll : (cs : List ClassDecl) →
    withNestedAll (withBodyAll k body cs) = (withNestedAll cs).map (withBody k body)
  | [] => rfl
  | c :: cs => by
    rw [withBodyAll, withNestedAll, withNestedAll, withNested_withBody c,
      withNestedAll_withBodyAll cs, List.map_append]

end

end ClassDecl

/-! ## What stays -/

namespace TypeNames

mutual

theorem classEntriesOf_withBody (outer : Option String) : (c : ClassDecl) →
    classEntriesOf outer (c.withBody k body) = classEntriesOf outer c
  | ⟨site, name, fields, methods, nested⟩ => by
    rw [ClassDecl.withBody, classEntriesOf, classEntriesOf, classEntries_withBodyAll _ nested]

theorem classEntries_withBodyAll (outer : Option String) : (cs : List ClassDecl) →
    classEntries outer (ClassDecl.withBodyAll k body cs) = classEntries outer cs
  | [] => rfl
  | c :: cs => by
    rw [ClassDecl.withBodyAll, classEntries, classEntries, classEntriesOf_withBody outer c,
      classEntries_withBodyAll outer cs]

end

end TypeNames

end

/-- A table with its values mapped. -/
def Table.mapValues {κ α β : Type} [Ord κ] (f : α → β) (t : Table κ α) : Table κ β :=
  ⟨t.entries.map fun e => (e.1, f e.2), List.pairwise_map.2 t.sorted⟩

theorem Table.place_map {κ α β : Type} [Ord κ] (f : α → β) (k : κ) (v : α) (es : List (κ × α)) :
    place k (f v) (es.map fun e => (e.1, f e.2)) = (place k v es).map fun e => (e.1, f e.2) := by
  induction es with
  | nil => rfl
  | cons e rest ih =>
    simp only [List.map_cons, place]
    cases compare k e.1 with
    | lt => rfl
    | eq => rfl
    | gt => exact congrArg _ ih

theorem Table.insert_mapValues {κ α β : Type} [Ord κ] [Std.TransOrd κ] [Std.LawfulEqOrd κ]
    (f : α → β) (t : Table κ α) (k : κ) (v : α) :
    (t.mapValues f).insert k (f v) = (t.insert k v).mapValues f := by
  simp only [insert, mapValues, place_map]

theorem Table.get?_mapValues {κ α β : Type} [Ord κ] [BEq κ] (f : α → β) (t : Table κ α) (k : κ) :
    (t.mapValues f).get? k = (t.get? k).map f := by
  show (t.entries.map fun e => (e.1, f e.2)).lookup k = (t.entries.lookup k).map f
  induction t.entries with
  | nil => rfl
  | cons e rest ih =>
    obtain ⟨i, v⟩ := e
    simp only [List.map_cons, List.lookup_cons]
    cases k == i with
    | true => rfl
    | false => exact ih

namespace Resolver

/-- The tables with the methods mapped. -/
def mapMethods (f : MethodDecl → MethodDecl) (r : Resolver) : Resolver :=
  { r with methods := r.methods.mapValues f }

theorem foldl_mapMethods {α : Type} {f : MethodDecl → MethodDecl} {g : Resolver → α → Resolver}
    {h : α → α} (hg : ∀ r a, g (r.mapMethods f) (h a) = (g r a).mapMethods f) (r : Resolver)
    (as : List α) : (as.map h).foldl g (r.mapMethods f) = (as.foldl g r).mapMethods f := by
  induction as generalizing r with
  | nil => rfl
  | cons a rest ih => rw [List.map_cons, List.foldl_cons, hg, ih, List.foldl_cons]

variable (voc : Vocabulary) {k : NodeId} {body : Option (List Stmt)}

theorem declareMethod_withBody (owner : NodeId) (r : Resolver) (m : MethodDecl) :
    declareMethod voc owner (r.mapMethods (MethodDecl.withBody k body)) (m.withBody k body) =
      (declareMethod voc owner r m).mapMethods (MethodDecl.withBody k body) := by
  simp only [declareMethod, returnType?, MethodDecl.name_withBody, MethodDecl.params_withBody,
    MethodDecl.returnType_withBody, MethodDecl.site_withBody]
  simp only [mapMethods, addSymbol, ← Table.insert_mapValues]

theorem declareClass_withBody (r : Resolver) (c : ClassDecl) :
    declareClass voc (r.mapMethods (MethodDecl.withBody k body)) (c.withBody k body) =
      (declareClass voc r c).mapMethods (MethodDecl.withBody k body) := by
  have hfields : ∀ r : Resolver, c.fields.foldl (declareField voc c.id)
      (r.mapMethods (MethodDecl.withBody k body)) =
      (c.fields.foldl (declareField voc c.id) r).mapMethods (MethodDecl.withBody k body) := by
    intro r
    have h := foldl_mapMethods (f := MethodDecl.withBody k body) (h := id)
      (g := declareField voc c.id) (fun _ _ => rfl) r c.fields
    rwa [List.map_id] at h
  have hmethods := foldl_mapMethods (@declareMethod_withBody voc k body c.id)
  simp only [declareClass, ClassDecl.name_withBody, ClassDecl.site_withBody, ClassDecl.id_withBody,
    ClassDecl.fields_withBody, ClassDecl.methods_withBody, List.length_map]
  have hstart : (r.mapMethods (MethodDecl.withBody k body)).addSymbol c.name .type
      (voc.types.lookup? c.name) c.site =
      (r.addSymbol c.name .type (voc.types.lookup? c.name) c.site).mapMethods
        (MethodDecl.withBody k body) := rfl
  rw [hstart, hfields, hmethods]
  rfl

end Resolver

namespace CompilationUnit

variable (u : CompilationUnit) (k : NodeId) (body : Option (List Stmt)) (order : ClassOrder)
  (signatures : Signatures)

theorem vocabulary_withBody :
    (u.withBody k body).vocabulary order signatures = u.vocabulary order signatures := by
  unfold vocabulary TypeNames.ofUnit TypeNames.entries withBody
  rw [TypeNames.classEntries_withBodyAll]

theorem announced_withBody :
    (u.withBody k body).announced order signatures =
      (u.announced order signatures).mapMethods (MethodDecl.withBody k body) := by
  unfold announced
  rw [vocabulary_withBody, allClasses, withBody, ClassDecl.withNestedAll_withBodyAll]
  exact Resolver.foldl_mapMethods (Resolver.declareClass_withBody _) {} _

end CompilationUnit

/-! ## Segments -/

/-- A stretch of the way through a unit. -/
inductive Segment
  | openClass (c : ClassDecl)
  /-- The initial values of the fields of a class. -/
  | values (es : List Expr)
  | method (m : MethodDecl)
  | leave

namespace Segment

def steps : Segment → List Step
  | .openClass c => [.openClass c]
  | .values es => es.flatMap Expr.steps
  | .method m => m.steps
  | .leave => [.leave]

/-- The numbers of the nodes of a segment. -/
def nodeIds : Segment → List NodeId
  | .openClass c => [c.id]
  | .values es => es.flatMap Expr.nodeIds
  | .method m => m.nodeIds
  | .leave => []

def withBody (k : NodeId) (body : Option (List Stmt)) : Segment → Segment
  | .openClass c => .openClass (c.withBody k body)
  | .method m => .method (m.withBody k body)
  | .values es => .values es
  | .leave => .leave

end Segment

namespace ClassDecl

mutual

/-- The segments of a class. -/
def segments : ClassDecl → List Segment
  | c@⟨_, _, fields, methods, nested⟩ =>
    .openClass c :: .values (fields.flatMap (·.init.toList)) ::
      (methods.map Segment.method ++ segmentsOf nested ++ [.leave])

def segmentsOf : List ClassDecl → List Segment
  | [] => []
  | c :: cs => segments c ++ segmentsOf cs

end

mutual

theorem flatMap_steps_segments : (c : ClassDecl) → c.segments.flatMap Segment.steps = c.steps
  | ⟨site, name, fields, methods, nested⟩ => by
    rw [segments, steps, ← flatMap_steps_segmentsOf nested]
    simp [Segment.steps, List.flatMap_map]

/-- The steps of classes are those of their segments. -/
theorem flatMap_steps_segmentsOf : (cs : List ClassDecl) →
    (segmentsOf cs).flatMap Segment.steps = stepsOf cs
  | [] => rfl
  | c :: cs => by
    rw [segmentsOf, stepsOf, List.flatMap_append, flatMap_steps_segments c,
      flatMap_steps_segmentsOf cs]

end

mutual

theorem segments_nodeIds_sublist : (c : ClassDecl) →
    (c.segments.flatMap Segment.nodeIds).Sublist (c.withNested.flatMap nodeIds)
  | ⟨site, name, fields, methods, nested⟩ => by
    have hvalues : ((fields.flatMap (·.init.toList)).flatMap Expr.nodeIds).Sublist
        (fields.flatMap VarDecl.nodeIds) := by
      rw [List.flatMap_assoc]
      exact .flatMap_right _ fun v _ => List.sublist_append_left _ _
    rw [segments, withNested]
    simp only [List.flatMap_cons, List.flatMap_append, Segment.nodeIds, nodeIds, List.flatMap_map,
      List.flatMap_nil, List.append_nil, List.cons_append, List.nil_append, List.append_assoc]
    exact (hvalues.append ((segmentsOf_nodeIds_sublist nested).append_left _)).cons_cons _

/-- The segments of classes have nodes of their own. -/
theorem segmentsOf_nodeIds_sublist : (cs : List ClassDecl) →
    ((segmentsOf cs).flatMap Segment.nodeIds).Sublist ((withNestedAll cs).flatMap nodeIds)
  | [] => List.Sublist.slnil
  | c :: cs => by
    rw [segmentsOf, withNestedAll, List.flatMap_append, List.flatMap_append]
    exact (segments_nodeIds_sublist c).append (segmentsOf_nodeIds_sublist cs)

end

mutual

theorem method_mem_segments {m : MethodDecl} : (c : ClassDecl) →
    (.method m ∈ c.segments ↔ ∃ d ∈ c.withNested, m ∈ d.methods)
  | ⟨site, name, fields, methods, nested⟩ => by
    rw [segments, withNested]
    simp [method_mem_segmentsOf nested]

theorem method_mem_segmentsOf {m : MethodDecl} : (cs : List ClassDecl) →
    (.method m ∈ segmentsOf cs ↔ ∃ d ∈ withNestedAll cs, m ∈ d.methods)
  | [] => by simp [segmentsOf, withNestedAll]
  | c :: cs => by
    rw [segmentsOf, withNestedAll, List.mem_append, method_mem_segments c, method_mem_segmentsOf cs]
    simp only [List.mem_append, or_and_right, exists_or]

end

mutual

theorem segments_withBody (k : NodeId) (body : Option (List Stmt)) : (c : ClassDecl) →
    (c.withBody k body).segments = c.segments.map (Segment.withBody k body)
  | ⟨site, name, fields, methods, nested⟩ => by
    rw [withBody, segments, segmentsOf_withBodyAll k body nested, segments]
    simp [Segment.withBody, withBody]

theorem segmentsOf_withBodyAll (k : NodeId) (body : Option (List Stmt)) : (cs : List ClassDecl) →
    segmentsOf (withBodyAll k body cs) = (segmentsOf cs).map (Segment.withBody k body)
  | [] => rfl
  | c :: cs => by
    rw [withBodyAll, segmentsOf, segmentsOf, segments_withBody k body c,
      segmentsOf_withBodyAll k body cs, List.map_append]

end

end ClassDecl

namespace Segment

variable {k : NodeId} {body : Option (List Stmt)} {s : Segment}

/-- A segment other than the method is gone through as before. -/
theorem run_withBody (h : k ∉ s.nodeIds) (voc : Vocabulary) (r : Resolver) :
    Resolver.run voc r (s.withBody k body).steps = Resolver.run voc r s.steps := by
  cases s with
  | openClass c =>
    simp only [withBody, steps, Resolver.run_cons, Resolver.run_nil, Resolver.step,
      Resolver.bindFields, ClassDecl.id_withBody, ClassDecl.fields_withBody]
  | method m =>
    rw [withBody, MethodDecl.withBody_of_ne]
    rintro rfl
    exact h List.mem_cons_self
  | values es => rfl
  | leave => rfl

theorem nodeIds_withBody (h : k ∉ s.nodeIds) : (s.withBody k body).nodeIds = s.nodeIds := by
  cases s with
  | openClass c => simp only [withBody, nodeIds, ClassDecl.id_withBody]
  | method m =>
    rw [withBody, MethodDecl.withBody_of_ne]
    rintro rfl
    exact h List.mem_cons_self
  | values es => rfl
  | leave => rfl

end Segment

end HandleLint
