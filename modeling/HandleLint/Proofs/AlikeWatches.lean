import HandleLint.Proofs.Findings
import HandleLint.Proofs.EventNodes
import HandleLint.Proofs.ResolverSimulation

/-!
# What is found where models agree

Two models may agree, up to the numbers of symbols, on all nodes outside of some methods
(`Watch.Alike`). A method that stays clear of these has the same findings in both: its candidates
correspond one by one, and so do the calls that release them.

* `Watch.Alike.sources_eq`, `Watch.Alike.reachesFactory_iff`: the helper graph;
* `Watch.Alike.matches_candidates`: the candidates of a method;
* `Watch.Alike.findingsOn_eq`: the findings on a candidate;
* `Watch.Alike.checkMethod_eq`: the findings of a method.
-/

namespace HandleLint

open Relation (ReflTransGen)

/-- The nodes that an event is about. -/
def Event.nodeIds : Event → List NodeId
  | .bind (.declared v) value => [v.id, value.id]
  | .bind (.assigned target) value => [target.id, value.id]
  | .returned value => [value.id]
  | .call site receiver _ args => site.id :: (receiver.toList ++ args).map Expr.id

/-- No event of the body is about a node that is excepted. -/
def OutsideOf (except : List NodeId) (body : List Stmt) : Prop :=
  ∀ event ∈ eventsOf .visit body, ∀ i ∈ event.nodeIds, i ∉ except

theorem OutsideOf.event {except : List NodeId} {body : List Stmt} {lists : ResourceLists}
    {event : Event} (h : OutsideOf except body) (he : event ∈ eventsOf lists body) :
    ∀ i ∈ event.nodeIds, i ∉ except :=
  h event (mem_eventsOf_visit he)

/-- A variable of a body other than a resource. -/
def Symbol.isHolder (s : Symbol) : Bool :=
  match s.kind with
  | .var origin => origin ≠ .tryResource
  | _ => false

/-- Ways through two graphs that agree on what is reached in one of them. -/
theorem reflTransGen_congr {α : Type} {E E' : α → α → Prop} {start : α}
    (h : ∀ x, ReflTransGen E start x → ∀ y, E' x y ↔ E x y) (z : α) :
    ReflTransGen E' start z ↔ ReflTransGen E start z := by
  constructor
  · intro hz
    induction hz with
    | refl => exact .refl
    | tail _ hbc ih => exact .tail ih ((h _ ih _).1 hbc)
  · intro hz
    induction hz with
    | refl => exact .refl
    | tail hb hbc ih => exact .tail ih ((h _ hb _).2 hbc)

namespace Watch

theorem boundLocal?_eq_filter (w : Watch) (target : BindTarget) :
    w.boundLocal? target =
      (w.written? target).filter fun id => (w.model.symbol? id).any Symbol.isHolder := by
  ext id
  rw [boundLocal?_eq_some_iff, Option.filter_eq_some_iff, Option.any_eq_true]
  refine and_congr_right fun _ => ⟨?_, ?_⟩
  · rintro ⟨symbol, origin, hs, hk, hne⟩
    refine ⟨symbol, hs, ?_⟩
    simp [Symbol.isHolder, hk, hne]
  · rintro ⟨symbol, hs, hh⟩
    cases hk : symbol.kind with
    | var origin => exact ⟨symbol, origin, hs, hk, by simpa [Symbol.isHolder, hk] using hh⟩
    | _ => simp [Symbol.isHolder, hk] at hh

theorem localHelper?_eq_some_iff {w : Watch} {value : Expr} {callee : SymbolId} :
    w.localHelper? value = some callee ↔ ∃ site method args target,
      value = .call site none method args ∧ w.model.callTarget? site.id = some target ∧
      target.returns = some w.resource.handleType ∧ target.callee = some callee ∧
      (w.model.body? callee).isSome := by
  constructor
  · intro h
    unfold localHelper? at h
    split at h
    · rename_i site method args
      obtain ⟨target, ht, h⟩ := Option.bind_eq_some_iff.1 h
      obtain ⟨hr, h⟩ := Option.ite_none_right_eq_some.1 h
      obtain ⟨id, hc, h⟩ := Option.bind_eq_some_iff.1 h
      obtain ⟨body, hb, h⟩ := Option.bind_eq_some_iff.1 h
      cases h
      exact ⟨site, method, args, target, rfl, ht, hr, hc, Option.isSome_of_eq_some hb⟩
    · cases h
  · rintro ⟨site, method, args, target, rfl, ht, hr, hc, hb⟩
    obtain ⟨body, hb⟩ := Option.isSome_iff_exists.1 hb
    simp [localHelper?, ht, hr, hc, hb]

/-- The watched handles are the same, and the models agree up to the numbers of symbols on all nodes
that are not excepted and on the bodies of all methods that are not changed. -/
structure Alike (except : List NodeId) (changed : SymbolId → Prop)
    (tied : SymbolId → SymbolId → Prop) (w w' : Watch) : Prop where
  resource : w'.resource = w.resource
  unique : ∀ {a b a' b'}, tied a a' → tied b b' → (a = b ↔ a' = b')
  symbols : ∀ {id id'}, tied id id' →
    (w'.model.symbol? id').map Symbol.anonymous = (w.model.symbol? id).map Symbol.anonymous
  references : ∀ i ∉ except, Option.Rel tied (w.model.reference? i) (w'.model.reference? i)
  declarations : ∀ i ∉ except,
    Option.Rel tied (w.model.declaration? i) (w'.model.declaration? i)
  calls : ∀ i ∉ except, w'.model.callTarget? i = w.model.callTarget? i
  bodies : ∀ id, ¬ changed id → w'.model.body? id = w.model.body? id
  changed_body : ∀ id, changed id → (w.model.body? id).isSome
  outside : ∀ id body, ¬ changed id → w.model.body? id = some body → OutsideOf except body

/-- No changed method is reached from a method whose call the event binds. -/
def Spares (w : Watch) (changed : SymbolId → Prop) (event : Event) : Prop :=
  ∀ target value helper, event = .bind target value → w.localHelper? value = some helper →
    ∀ method, ReflTransGen w.LeadsTo helper method → ¬ changed method

namespace Alike

variable {except : List NodeId} {changed : SymbolId → Prop} {tied : SymbolId → SymbolId → Prop}
  {w w' : Watch} {id id' : SymbolId} {value : Expr} {target : BindTarget} {event : Event}
  {body : List Stmt}

theorem some_iff (h : Alike except changed tied w w') {o o' : Option SymbolId}
    (ho : Option.Rel tied o o') (hid : tied id id') : o' = some id' ↔ o = some id := by
  cases ho with
  | none => exact iff_of_false nofun nofun
  | some hab =>
    rw [Option.some_inj, Option.some_inj]
    exact (h.unique hab hid).symm

/-! ## Expressions -/

theorem identReference? (h : Alike except changed tied w w') (hv : value.id ∉ except) :
    Option.Rel tied (w.model.identReference? value) (w'.model.identReference? value) := by
  cases value with
  | ident s name => exact h.references s.id hv
  | _ => exact .none

theorem boundLocal? (h : Alike except changed tied w w')
    (hout : ∀ i ∈ (Event.bind target value).nodeIds, i ∉ except) :
    Option.Rel tied (w.boundLocal? target) (w'.boundLocal? target) := by
  have hwritten : Option.Rel tied (w.written? target) (w'.written? target) := by
    cases target with
    | declared v => exact h.declarations v.id (hout _ List.mem_cons_self)
    | assigned e => exact h.identReference? (hout _ List.mem_cons_self)
  have hholder : ∀ {a b}, tied a b → ((w'.model.symbol? b).any Symbol.isHolder =
      (w.model.symbol? a).any Symbol.isHolder) := by
    intro a b hab
    have hnamed := congrArg (Option.any Symbol.isHolder) (h.symbols hab)
    simp only [Option.any_map] at hnamed
    exact hnamed
  rw [boundLocal?_eq_filter, boundLocal?_eq_filter]
  generalize w.written? target = o, w'.written? target = o' at hwritten
  cases hwritten with
  | none => exact .none
  | some hab =>
    rw [Option.filter_some, Option.filter_some, hholder hab]
    split
    · exact .some hab
    · exact .none

theorem isFactoryCall (h : Alike except changed tied w w') (hv : value.id ∉ except) :
    w'.isFactoryCall value = w.isFactoryCall value := by
  cases value with
  | call s receiver method args =>
    simp only [Watch.isFactoryCall, h.calls s.id hv, h.resource]
  | _ => rfl

theorem localHelper? (h : Alike except changed tied w w') (hv : value.id ∉ except)
    (hhelper : ∀ helper, w.localHelper? value = some helper → ¬ changed helper) :
    w'.localHelper? value = w.localHelper? value := by
  ext callee
  constructor
  · intro hc
    obtain ⟨site, method, args, target, rfl, ht, hr, hc, hb⟩ := localHelper?_eq_some_iff.1 hc
    rw [h.calls site.id hv] at ht
    rw [h.resource] at hr
    refine localHelper?_eq_some_iff.2 ⟨site, method, args, target, rfl, ht, hr, hc, ?_⟩
    by_cases hchanged : changed callee
    · exact h.changed_body callee hchanged
    · exact h.bodies callee hchanged ▸ hb
  · intro hc
    have hsame := h.bodies callee (hhelper callee hc)
    obtain ⟨site, method, args, target, rfl, ht, hr, hc, hb⟩ := localHelper?_eq_some_iff.1 hc
    refine localHelper?_eq_some_iff.2 ⟨site, method, args, target, rfl, ?_, ?_, hc, hsame ▸ hb⟩
    · rw [h.calls site.id hv, ht]
    · rw [h.resource, hr]

theorem source? (h : Alike except changed tied w w') (hv : value.id ∉ except)
    (hhelper : ∀ helper, w.localHelper? value = some helper → ¬ changed helper) :
    w'.source? value = w.source? value := by
  rw [Watch.source?, Watch.source?, h.isFactoryCall hv, h.localHelper? hv hhelper]

theorem value_notMem (hout : ∀ i ∈ (Event.bind target value).nodeIds, i ∉ except) :
    value.id ∉ except := by
  cases target <;> exact hout _ (List.mem_cons_of_mem _ List.mem_cons_self)

/-! ## The helper graph -/

theorem returnedVariable? (h : Alike except changed tied w w') (hbody : OutsideOf except body) :
    Option.Rel tied (w.returnedVariable? body) (w'.returnedVariable? body) := by
  refine rel_findSome? (List.forall₂_same.2 fun event he => ?_)
  cases event with
  | returned value => exact h.identReference? (hbody _ he _ List.mem_cons_self)
  | bind target value => exact .none
  | call site receiver method args => exact .none

/-- A method that is not changed has the same sources, unless it leads to one that is. -/
theorem sources_eq (h : Alike except changed tied w w') {method : SymbolId}
    (hmethod : ¬ changed method) (hnext : ∀ next, w.LeadsTo method next → ¬ changed next) :
    w'.sources method = w.sources method := by
  unfold sources
  rw [h.bodies method hmethod]
  cases hbody : w.model.body? method with
  | none => rfl
  | some body =>
    have hout := h.outside method body hmethod hbody
    have hreturned := h.returnedVariable? hout
    simp only
    generalize hid : w.returnedVariable? body = o, w'.returnedVariable? body = o' at hreturned ⊢
    cases hreturned with
    | none => rfl
    | @some id id' htied =>
      have hreturns := returnedVariable?_eq_some_iff.1 hid
      refine List.filterMap_congr fun event he => ?_
      cases event with
      | bind target value =>
        have hbind := hout.event he
        simp only [sourceOf?, h.some_iff (h.boundLocal? hbind) htied]
        split
        · rename_i hbound
          refine h.source? (value_notMem hbind) fun next hn => hnext next ?_
          exact ⟨value, ⟨body, id, target, hbody, hreturns, he, hbound⟩, hn⟩
        · rfl
      | returned value => rfl
      | call site receiver method args => rfl

theorem reachesFactory_iff (h : Alike except changed tied w w') {start : SymbolId}
    (hstart : ∀ method, ReflTransGen w.LeadsTo start method → ¬ changed method) :
    w'.ReachesFactory start ↔ w.ReachesFactory start := by
  have hsources : ∀ method, ReflTransGen (fun a b => .helper b ∈ w.sources a) start method →
      w'.sources method = w.sources method := by
    intro method hm
    have hreached := ReflTransGen.mono (fun _ _ => leadsTo_of_mem_sources) _ _ hm
    exact h.sources_eq (hstart method hreached) fun next hn => hstart next (hreached.tail hn)
  have hways := @reflTransGen_congr _ (fun a b => .helper b ∈ w.sources a)
    (fun a b => .helper b ∈ w'.sources a) start fun x hx y => by rw [hsources x hx]
  rw [reachesFactory_iff_sources, reachesFactory_iff_sources]
  refine exists_congr fun last => ?_
  rw [hways]
  exact and_congr_right fun hlast => by rw [hsources last hlast]

theorem createsAs_iff (h : Alike except changed tied w w')
    (hout : ∀ i ∈ (Event.bind target value).nodeIds, i ∉ except)
    (hspares : w.Spares changed (.bind target value)) {creation : Creation} :
    w'.CreatesAs value creation ↔ w.CreatesAs value creation := by
  have hv := value_notMem hout
  have hhelper : ∀ helper, w.localHelper? value = some helper → ¬ changed helper :=
    fun helper hl => hspares target value helper rfl hl helper .refl
  cases creation with
  | factory => rw [CreatesAs, CreatesAs, h.isFactoryCall hv]
  | helper method =>
    rw [CreatesAs, CreatesAs, h.isFactoryCall hv, h.localHelper? hv hhelper]
    refine and_congr_right fun _ => and_congr_right fun hl => ?_
    exact h.reachesFactory_iff (hspares target value method rfl hl)

end Alike

end Watch

/-! ## Candidates -/

/-- Candidates that correspond one by one, with the same creations. -/
def CandidateSet.Matches (tied : SymbolId → SymbolId → Prop) (s s' : CandidateSet) : Prop :=
  List.Forall₂ (fun a b => tied a.1 b.1 ∧ b.2 = a.2) s.entries s'.entries

namespace Watch.Alike

variable {except : List NodeId} {changed : SymbolId → Prop} {tied : SymbolId → SymbolId → Prop}
  {w w' : Watch} {f f' : Finder} {set set' : CandidateSet} {id id' : SymbolId} {event : Event}
  {events : List Event} {m : MethodDecl}

theorem contains (h : Alike except changed tied w w') (hset : set.Matches tied set')
    (hid : tied id id') : set'.contains id' = set.contains id := by
  have hany : ∀ {l l' : List (SymbolId × Creation)},
      List.Forall₂ (fun a b => tied a.1 b.1 ∧ b.2 = a.2) l l' →
      l'.any (fun entry => entry.1 = id') = l.any (fun entry => entry.1 = id) := by
    intro l l' hl
    induction hl with
    | nil => rfl
    | cons hab _ ih => simp only [List.any_cons, ih, h.unique hab.1 hid]
  exact hany hset

theorem insert (h : Alike except changed tied w w') (hset : set.Matches tied set')
    (hid : tied id id') (creation : Creation) :
    (set.insert id creation).Matches tied (set'.insert id' creation) := by
  unfold CandidateSet.insert
  rw [h.contains hset hid]
  split
  · exact hset
  · exact List.rel_append hset (.cons ⟨hid, rfl⟩ .nil)

theorem erase (h : Alike except changed tied w w') (hset : set.Matches tied set')
    (hid : tied id id') : (set.erase id).Matches tied (set'.erase id') := by
  refine List.rel_filter (fun a b hab => ?_) hset
  simp only [ne_eq, decide_eq_true_eq, h.unique hab.1 hid]

/-- What an event does to candidates that correspond. -/
theorem step (h : Alike except changed tied w w') (hf : f.Sound w) (hf' : f'.Sound w')
    (hset : set.Matches tied set') (hout : ∀ i ∈ event.nodeIds, i ∉ except)
    (hspares : w.Spares changed event) (method : String) :
    (Finder.step w method set f event).1.Matches tied
      (Finder.step w' method set' f' event).1 := by
  cases event with
  | bind target value =>
    have hbound := h.boundLocal? hout
    have hcreation : (f'.creation? w' value).1 = (f.creation? w value).1 := by
      ext creation
      rw [Finder.creation?_eq_some_iff hf', Finder.creation?_eq_some_iff hf]
      exact h.createsAs_iff hout hspares
    simp only [Finder.step]
    generalize w.boundLocal? target = o, w'.boundLocal? target = o' at hbound
    cases hbound with
    | none => exact hset
    | some hid =>
      rcases hc : f.creation? w value with ⟨_ | creation, g⟩
      · rcases hc' : f'.creation? w' value with ⟨_ | creation', g'⟩
        · exact hset
        · rw [hc, hc'] at hcreation
          cases hcreation
      · rcases hc' : f'.creation? w' value with ⟨_ | creation', g'⟩
        · rw [hc, hc'] at hcreation
          cases hcreation
        · rw [hc, hc'] at hcreation
          cases hcreation
          exact h.insert hset hid creation
  | returned value =>
    have hreturned := h.identReference? (hout _ List.mem_cons_self)
    simp only [Finder.step]
    generalize w.model.identReference? value = o, w'.model.identReference? value = o' at hreturned
    cases hreturned with
    | none => exact hset
    | some hid =>
      simp only [h.contains hset hid]
      split
      · exact h.erase hset hid
      · exact hset
  | call site receiver name args => exact hset

theorem foldl_step (h : Alike except changed tied w w') (hf : f.Sound w) (hf' : f'.Sound w')
    (hset : set.Matches tied set')
    (hevents : ∀ event ∈ events, (∀ i ∈ event.nodeIds, i ∉ except) ∧ w.Spares changed event)
    (method : String) :
    (events.foldl (fun (set, f) event => Finder.step w method set f event) (set, f)).1.Matches tied
      (events.foldl (fun (set, f) event => Finder.step w' method set f event) (set', f')).1 := by
  induction events generalizing set set' f f' with
  | nil => exact hset
  | cons event rest ih =>
    obtain ⟨⟨hout, hspares⟩, hrest⟩ := List.forall_mem_cons.1 hevents
    exact ih (Finder.step_cases hf method set event).1 (Finder.step_cases hf' method set' event).1
      (h.step hf hf' hset hout hspares method) hrest

/-- The candidates of a method that stays clear of the changed methods. -/
theorem matches_candidates (h : Alike except changed tied w w')
    (hbody : OutsideOf except (m.body.getD []))
    (hspares : ∀ event ∈ eventsOf .skip (m.body.getD []), w.Spares changed event) :
    (w.candidates m).Matches tied (w'.candidates m) := by
  rw [candidates, candidates, Finder.find_eq_foldl, Finder.find_eq_foldl]
  exact h.foldl_step (Finder.sound_fresh w) (Finder.sound_fresh w') .nil
    (fun event he => ⟨hbody.event he, hspares event he⟩) m.name

/-! ## Findings -/

variable {body : List Stmt} {rules : List Rule}

theorem releasedIn_iff (h : Alike except changed tied w w') (hbody : OutsideOf except body)
    (hid : tied id id') : w'.ReleasedIn body id' ↔ w.ReleasedIn body id := by
  refine exists_congr fun site => exists_congr fun receiver => exists_congr fun name =>
    and_congr_right fun ho => ?_
  rw [h.resource]
  refine and_congr_right fun _ => h.some_iff (h.identReference? ?_) hid
  refine hbody _ (call_mem_eventsOf_iff.2 ho) _ (List.mem_cons_of_mem _ ?_)
  exact List.mem_cons_self

theorem handedOffIn_iff (h : Alike except changed tied w w') (hbody : OutsideOf except body)
    (hid : tied id id') : w'.HandedOffIn body id' ↔ w.HandedOffIn body id := by
  refine exists_congr fun site => exists_congr fun receiver => exists_congr fun name =>
    exists_congr fun args => and_congr_right fun ho => ?_
  rw [h.resource]
  refine and_congr_right fun _ => exists_congr fun arg => and_congr_right fun ha => ?_
  refine h.some_iff (h.identReference? ?_) hid
  refine hbody _ (call_mem_eventsOf_iff.2 ho) _ (List.mem_cons_of_mem _ ?_)
  exact List.mem_map_of_mem (List.mem_append_right _ ha)

end Watch.Alike

/-- The rule fires when one of the built-in rules does. -/
def Rule.IsBuiltIn (rule : Rule) : Prop :=
  ∃ base ∈ Rule.all, rule.fires = base.fires

/-- Whether a built-in rule fires depends on whether there was a release, not on where. -/
theorem Rule.IsBuiltIn.fires_congr {rule : Rule} (h : rule.IsBuiltIn) {o o' : Outcome}
    (hrelease : o'.release.isSome = o.release.isSome)
    (hhanded : o'.handedOff.isSome = o.handedOff.isSome) : rule.fires o' = rule.fires o := by
  obtain ⟨base, hb, hfires⟩ := h
  rw [hfires]
  simp only [Rule.all, List.mem_cons, List.not_mem_nil, or_false] at hb
  rcases hb with rfl | rfl
  · exact hrelease
  · simp only [Rule.unclosed, Rule.neverClosed, ← Option.not_isSome, hrelease, hhanded]

namespace Watch.Alike

variable {except : List NodeId} {changed : SymbolId → Prop} {tied : SymbolId → SymbolId → Prop}
  {w w' : Watch} {f f' : Finder} {m : MethodDecl} {rules : List Rule}

theorem judge_eq (h : Alike except changed tied w w') (hrules : ∀ rule ∈ rules, rule.IsBuiltIn)
    {o o' : Outcome} (hsymbol : o'.symbol.anonymous = o.symbol.anonymous)
    (hrelease : o'.release.isSome = o.release.isSome)
    (hhanded : o'.handedOff.isSome = o.handedOff.isSome) :
    Finder.judge w' rules o' = Finder.judge w rules o := by
  have hfinding : ∀ info : RuleInfo, Finding.ofRule w'.resource.handleName o'.symbol info =
      Finding.ofRule w.resource.handleName o.symbol info := by
    intro info
    show Finding.ofRule _ o'.symbol.anonymous info = Finding.ofRule _ o.symbol.anonymous info
    rw [h.resource, hsymbol]
  unfold Finder.judge
  rw [List.filter_congr fun rule hr => (hrules rule hr).fires_congr hrelease hhanded]
  simp only [hfinding]

/-- The findings on candidates that correspond. -/
theorem findingsOn_eq (h : Alike except changed tied w w')
    (hbody : OutsideOf except (m.body.getD []))
    (hrules : ∀ rule ∈ rules, rule.IsBuiltIn) {a b : SymbolId × Creation} (hid : tied a.1 b.1) :
    w'.findingsOn rules m b = w.findingsOn rules m a := by
  have hsymbol := h.symbols hid
  cases hs : w.model.symbol? a.1 with
  | none =>
    rw [hs] at hsymbol
    rw [findingsOn_of_none hs, findingsOn_of_none (Option.map_eq_none_iff.1 hsymbol)]
  | some symbol =>
    rw [hs] at hsymbol
    obtain ⟨symbol', hs', hanonymous⟩ := Option.map_eq_some_iff.1 hsymbol
    rw [findingsOn_of_symbol? hs, findingsOn_of_symbol? hs']
    exact h.judge_eq hrules hanonymous (Releases.calls_ofBody_congr (h.releasedIn_iff hbody hid))
      (Releases.handedOff_ofBody_congr (h.handedOffIn_iff hbody hid))

/-- The findings of a method that stays clear of the changed methods. -/
theorem checkMethod_eq (h : Alike except changed tied w w')
    (hbody : OutsideOf except (m.body.getD []))
    (hspares : ∀ event ∈ eventsOf .skip (m.body.getD []), w.Spares changed event)
    (hrules : ∀ rule ∈ rules, rule.IsBuiltIn) (hf : f.Sound w) (hf' : f'.Sound w') :
    (f'.checkMethod w' rules m).1 = (f.checkMethod w rules m).1 := by
  rw [(Finder.checkMethod_eq hf rules m).2, (Finder.checkMethod_eq hf' rules m).2]
  have hmatches := h.matches_candidates hbody hspares
  unfold CandidateSet.Matches at hmatches
  generalize (w.candidates m).entries = as, (w'.candidates m).entries = bs at hmatches
  induction hmatches with
  | nil => rw [List.flatMap_nil, List.flatMap_nil]
  | cons hab _ ih =>
    rw [List.flatMap_cons, List.flatMap_cons, ih, h.findingsOn_eq hbody hrules hab.1]

end Watch.Alike

end HandleLint
