import HandleLint.Proofs.Explorations
import HandleLint.Proofs.Noninterference
import HandleLint.Proofs.ResolvedTables
import Mathlib.Data.List.Chain

/-!
# How deep a search goes

A search for the sources of a method goes from method to method along the helper graph. Here it
keeps the way it came on a stack that its calls share, gives up where calls nest too deep, and
writes down every call when it returns. Nothing of this changes an answer, and no call is too deep:

* `Finder.descend`: the search on a stack;
* `Finder.Question.next`: the calls that `Finder.classify` makes itself;
* `Finder.Below`: the stack is a way through the helper graph that meets no method twice, the
  invariant of every call;
* `Finder.Logged`: the calls written down are those that are made;
* `Finder.follows_descend`: the search on a stack answers as `Finder.classify` does, makes the same
  calls, and leaves the stack as it was;
* `Finder.descend_resolve`: in a resolved unit, calls nest no deeper than there are methods, and one
  more.
-/

namespace HandleLint

open Relation (TransGen)

namespace Finder

/-! ## A search on a stack -/

/-- What a call of a search asks. -/
structure Question where
  helper : SymbolId
  /-- What the finder remembers when the call is made. -/
  asked : Finder
  /-- The stack when the call is made. -/
  before : List SymbolId

/-- A call of a search on a stack, when it returns. -/
structure Call extends Question where
  /-- The stack while the method was gone through; as before, where it was not. -/
  during : List SymbolId
  /-- The stack when the call returned. -/
  after : List SymbolId
  verdict : Verdict

/-- A finder with the stack of its search, and the calls that have returned. -/
structure Search where
  finder : Finder
  stack : List SymbolId := []
  calls : List Call := []

namespace Search

def push (s : Search) (helper : SymbolId) : Search :=
  { s with stack := s.stack ++ [helper] }

def pop (s : Search) : Search :=
  { s with stack := s.stack.dropLast }

/-- Writes down a call that was made in `start`. -/
def record (s start : Search) (helper : SymbolId) (during : List SymbolId) (v : Verdict) : Search :=
  { s with
    calls := s.calls ++ [⟨⟨helper, start.finder, start.stack⟩, during, s.stack, v⟩] }

end Search

/-- Classifies a method below those on the stack. The search is given up if calls nest deeper than
the limit. -/
def descend (w : Watch) : Nat → SymbolId → Option Search → Verdict × Option Search
  | limit + 1, helper, some s =>
    match s.finder.memo.get? helper with
    | some known =>
      let v : Verdict := { creates := known }
      (v, s.record s helper s.stack v)
    | none =>
      match s.stack.idxOf? helper with
      | some depth =>
        let v : Verdict := { creates := false, cut := some depth }
        (v, s.record s helper s.stack v)
      | none =>
        let inside := s.push helper
        match (w.sources helper).foldl (consult (descend w limit))
          ({ creates := false }, some inside) with
        | (v, none) => (v, none)
        | (v, some t) =>
          let left := t.pop
          let done := left.finder.conclude w helper s.stack.length v
          (done.1, { left with finder := done.2 }.record s helper inside.stack done.1)
  | _, _, _ => ({ creates := false }, none)

variable {w : Watch} {path : List SymbolId} {helper : SymbolId}

/-! ## The stack -/

/-- A method is classified below a path: a way through the helper graph that leads to the method,
and meets no method twice before it. -/
structure Below (w : Watch) (path : List SymbolId) (helper : SymbolId) : Prop where
  distinct : path.Nodup
  way : (path ++ [helper]).IsChain w.LeadsTo

namespace Below

theorem root (w : Watch) (helper : SymbolId) : Below w [] helper :=
  ⟨.nil, List.isChain_singleton helper⟩

theorem nodup_concat (h : Below w path helper) (hp : helper ∉ path) : (path ++ [helper]).Nodup :=
  List.nodup_append.2 ⟨h.distinct, List.nodup_singleton helper, by
    rintro method hm _ hh rfl
    exact hp (List.mem_singleton.1 hh ▸ hm)⟩

/-- From a method that is not on the path, the way goes on. -/
theorem further (h : Below w path helper) (hp : helper ∉ path) {next : SymbolId}
    (hl : w.LeadsTo helper next) : Below w (path ++ [helper]) next where
  distinct := h.nodup_concat hp
  way := by
    refine h.way.append (List.isChain_singleton next) ?_
    simpa using hl

/-- Each method of the way leads to all that come after it. -/
theorem pairwise (h : Below w path helper) : (path ++ [helper]).Pairwise (TransGen w.LeadsTo) :=
  List.isChain_iff_pairwise.1 (h.way.imp fun _ _ => .single)

theorem leads (h : Below w path helper) : ∀ method ∈ path, TransGen w.LeadsTo method helper :=
  fun method hm => (List.pairwise_append.1 h.pairwise).2.2 method hm helper List.mem_cons_self

/-- All methods of the way but the first are led to. -/
theorem led (h : Below w path helper) {method : SymbolId} (hm : method ∈ (path ++ [helper]).tail) :
    ∃ previous, w.LeadsTo previous method := by
  cases hway : path ++ [helper] with
  | nil => simp [hway] at hm
  | cons first rest =>
    have hpairwise := h.pairwise
    rw [hway] at hm hpairwise
    obtain ⟨previous, -, hl⟩ := TransGen.tail'_iff.1 (List.rel_of_pairwise_cons hpairwise hm)
    exact ⟨previous, hl⟩

/-- All methods of the path have a body. -/
theorem mem_helpers (h : Below w path helper) {method : SymbolId} (hm : method ∈ path) :
    method ∈ w.helpers := by
  obtain ⟨next, ⟨value, ⟨body, _, _, hbody, -⟩, -⟩, -⟩ := TransGen.head'_iff.1 (h.leads method hm)
  by_contra hnot
  rw [Watch.not_mem_helpers_iff.1 hnot] at hbody
  cases hbody

theorem length_le (h : Below w path helper) : path.length ≤ w.helpers.length :=
  (h.distinct.subperm fun _ hm => h.mem_helpers hm).length_le

end Below

/-! ## The calls of a search -/

/-- The call that a source leads to, unless the answer is known before it. -/
def Question.ofSource? (path : List SymbolId) (s : Verdict × Finder) : Creation → Option Question
  | .factory => none
  | .helper next => if s.1.creates then none else some ⟨next, s.2, path⟩

/-- The calls that sources lead to, as they are taken into account one after the other. -/
def questions (w : Watch) (path : List SymbolId) : List Creation → Verdict × Finder → List Question
  | [], _ => []
  | source :: rest, s =>
    (Question.ofSource? path s source).toList ++
      questions w path rest (consult (fun next f => f.classify w next path) s source)

/-- The calls that `classify` makes itself when it is asked. -/
def Question.next (w : Watch) (q : Question) : List Question :=
  if q.asked.memo.get? q.helper = none ∧ q.helper ∉ q.before then
    questions w (q.before ++ [q.helper]) (w.sources q.helper) ({ creates := false }, q.asked)
  else []

/-- A call of a search on a stack is one of `classify` with the stack as its path, and the stack is
the same after it. -/
structure Call.Orderly (w : Watch) (call : Call) : Prop where
  below : Below w call.before call.helper
  during : call.during = call.before ∨
    call.helper ∉ call.before ∧ call.during = call.before ++ [call.helper]
  after : call.after = call.before
  verdict : call.verdict = (call.asked.classify w call.helper call.before).1

/-- Orderly calls that are those asked for and all that they make, each of them once. -/
structure Logged (w : Watch) (asked : List Question) (calls : List Call) : Prop where
  orderly : ∀ call ∈ calls, call.Orderly w
  complete : (calls.map Call.toQuestion).Perm (asked ++ calls.flatMap fun call => call.next w)

namespace Logged

variable {asked asked' : List Question} {calls calls' : List Call}

theorem nil (w : Watch) : Logged w [] [] :=
  ⟨nofun, .nil⟩

theorem append (h : Logged w asked calls) (h' : Logged w asked' calls') :
    Logged w (asked ++ asked') (calls ++ calls') where
  orderly := List.forall_mem_append.2 ⟨h.orderly, h'.orderly⟩
  complete := by
    rw [List.map_append, List.flatMap_append, List.append_assoc]
    refine (h.complete.append h'.complete).trans ?_
    rw [List.append_assoc]
    exact .append_left asked (List.perm_append_comm_assoc _ _ _)

/-- A call returns after those that it makes. -/
theorem concat {call : Call} (h : Logged w (call.next w) calls) (hcall : call.Orderly w) :
    Logged w [call.toQuestion] (calls ++ [call]) where
  orderly := List.forall_mem_append.2 ⟨h.orderly, List.forall_mem_singleton.2 hcall⟩
  complete := by
    rw [List.map_append, List.flatMap_append, List.map_singleton, List.flatMap_singleton]
    refine List.perm_append_comm.trans (.append_left _ ?_)
    exact h.complete.trans List.perm_append_comm

end Logged

/-! ## Answers on the stack -/

/-- A search on a stack gives an answer that is known, leaves the stack as it was, and makes the
calls asked for. -/
def Follows (w : Watch) (s : Search) (asked : List Question) (answer : Verdict × Finder)
    (result : Verdict × Option Search) : Prop :=
  ∃ calls, Logged w asked calls ∧
    result = (answer.1, some { s with finder := answer.2, calls := s.calls ++ calls })

theorem Follows.refl (w : Watch) (v : Verdict) (s : Search) :
    Follows w s [] (v, s.finder) (v, some s) :=
  ⟨[], .nil w, by simp⟩

theorem follows_consult {search : SymbolId → Option Search → Verdict × Option Search}
    {source : Creation} {v : Verdict} {s : Search}
    (hsearch : ∀ next, source = .helper next → Follows w s [⟨next, s.finder, s.stack⟩]
      (s.finder.classify w next s.stack) (search next (some s))) :
    Follows w s (Question.ofSource? s.stack (v, s.finder) source).toList
      (consult (fun next f => f.classify w next s.stack) (v, s.finder) source)
      (consult search (v, some s) source) := by
  cases source with
  | factory =>
    unfold consult
    split
    · exact .refl w v s
    · exact .refl w _ s
  | helper next =>
    unfold consult Question.ofSource?
    cases hc : v.creates with
    | true => exact .refl w v s
    | false =>
      obtain ⟨calls, hlogged, hresult⟩ := hsearch next rfl
      refine ⟨calls, hlogged, ?_⟩
      simp [hresult]

/-- Sources that are taken into account one after the other, all on the same stack. -/
theorem follows_foldl {search : SymbolId → Option Search → Verdict × Option Search}
    {stack : List SymbolId} {sources : List Creation}
    (hsearch : ∀ next, .helper next ∈ sources → ∀ s : Search, s.stack = stack →
      Follows w s [⟨next, s.finder, s.stack⟩] (s.finder.classify w next s.stack)
        (search next (some s)))
    (v : Verdict) (s : Search) (hs : s.stack = stack) :
    Follows w s (questions w stack sources (v, s.finder))
      (sources.foldl (consult fun next f => f.classify w next stack) (v, s.finder))
      (sources.foldl (consult search) (v, some s)) := by
  induction sources generalizing v s with
  | nil => exact .refl w v s
  | cons source rest ih =>
    let t := consult (fun next f => f.classify w next stack) (v, s.finder) source
    obtain ⟨calls, hlogged, hresult⟩ : Follows w s
        (Question.ofSource? stack (v, s.finder) source).toList t
        (consult search (v, some s) source) := by
      subst hs
      exact follows_consult fun next hn => hsearch next (hn ▸ List.mem_cons_self) s rfl
    obtain ⟨calls', hlogged', hresult'⟩ :=
      ih (fun next hm => hsearch next (List.mem_cons_of_mem _ hm)) t.1
        { s with finder := t.2, calls := s.calls ++ calls } hs
    refine ⟨calls ++ calls', hlogged.append hlogged', ?_⟩
    rw [List.foldl_cons, hresult, List.foldl_cons]
    simpa using hresult'

/-- A call that is answered without going through the method. -/
theorem follows_record {s : Search} {v : Verdict} (h : Below w s.stack helper)
    (hnone : (⟨helper, s.finder, s.stack⟩ : Question).next w = [])
    (hv : s.finder.classify w helper s.stack = (v, s.finder)) :
    Follows w s [⟨helper, s.finder, s.stack⟩] (s.finder.classify w helper s.stack)
      (v, some (s.record s helper s.stack v)) := by
  rw [hv]
  let call : Call := ⟨⟨helper, s.finder, s.stack⟩, s.stack, s.stack, v⟩
  have hlogged : Logged w (call.next w) [] := hnone ▸ .nil w
  refine ⟨[call], hlogged.concat ⟨h, .inl rfl, rfl, ?_⟩, rfl⟩
  show v = (s.finder.classify w helper s.stack).1
  rw [hv]

/-- Below a way through the helper graph the search on a stack follows `classify`, if the limit
leaves room for all methods that are not on the stack yet, and for one call more. -/
theorem follows_descend {limit : Nat} {s : Search} (h : Below w s.stack helper)
    (hlimit : w.helpers.length < s.stack.length + limit) :
    Follows w s [⟨helper, s.finder, s.stack⟩] (s.finder.classify w helper s.stack)
      (descend w limit helper (some s)) := by
  induction limit generalizing helper s with
  | zero => exact absurd h.length_le (by omega)
  | succ limit ih =>
  unfold descend
  cases hk : s.finder.memo.get? helper with
  | some known => exact follows_record h (by simp [Question.next, hk]) (classify_known hk)
  | none =>
  cases hd : s.stack.idxOf? helper with
  | some depth =>
    have hp : helper ∈ s.stack := by
      by_contra hp
      rw [List.idxOf?_eq_none_iff.2 hp] at hd
      cases hd
    exact follows_record h (by simp [Question.next, hp]) (classify_cut hk hd)
  | none =>
    have hp : helper ∉ s.stack := List.idxOf?_eq_none_iff.1 hd
    have hsearch : ∀ next, .helper next ∈ w.sources helper → ∀ t : Search,
        t.stack = s.stack ++ [helper] → Follows w t [⟨next, t.finder, t.stack⟩]
          (t.finder.classify w next t.stack) (descend w limit next (some t)) := by
      intro next hs t ht
      have hbelow := h.further hp (Watch.leadsTo_of_mem_sources hs)
      rw [← ht] at hbelow
      refine ih hbelow ?_
      rw [ht, List.length_append, List.length_singleton]
      omega
    obtain ⟨calls, hlogged, hresult⟩ :=
      follows_foldl hsearch { creates := false } (s.push helper) rfl
    have hpop : (s.stack ++ [helper]).dropLast = s.stack := List.dropLast_concat
    let call : Call := ⟨⟨helper, s.finder, s.stack⟩, s.stack ++ [helper], s.stack,
      (s.finder.classify w helper s.stack).1⟩
    have hnext : call.next w = questions w (s.stack ++ [helper]) (w.sources helper)
        ({ creates := false }, s.finder) := if_pos ⟨hk, hp⟩
    -- the push is undone, so the call itself comes last and on the stack on which it was made
    refine ⟨calls ++ [call], (hnext ▸ hlogged).concat ⟨h, .inr ⟨hp, rfl⟩, rfl, rfl⟩, ?_⟩
    simp only [hresult]
    simp only [Search.pop, Search.push, Search.record, hpop, classify_search hk hp,
      List.append_assoc, call]

end Finder

/-! ## The methods of a unit -/

theorem Table.size_insert_le {κ α : Type} [Ord κ] [Std.TransOrd κ] [Std.LawfulEqOrd κ]
    (t : Table κ α) (k : κ) (v : α) : (t.insert k v).size ≤ t.size + 1 := by
  show (place k v t.entries).length ≤ t.entries.length + 1
  induction t.entries with
  | nil => simp [place]
  | cons e rest ih =>
    unfold place
    split
    · simp
    · simp
    · simpa using ih

namespace Resolver

variable {voc : Vocabulary} {r r' : Resolver} {count : Nat}

/-- At most so many methods are entered, and the symbol of each has the type that it returns. -/
structure HoldsMethods (voc : Vocabulary) (count : Nat) (r : Resolver) : Prop where
  size_le : r.methods.size ≤ count
  typed : ∀ {id m}, r.method? id = some m →
    ∃ s, r.symbol? id = some s ∧ s.type = returnType? voc m

namespace HoldsMethods

theorem mono (h : r.HoldsMethods voc count) (hmethods : r'.methods = r.methods)
    (hsymbols : ∀ {id s}, r.symbol? id = some s → r'.symbol? id = some s) :
    r'.HoldsMethods voc count where
  size_le := hmethods ▸ h.size_le
  typed := by
    intro id m hm
    rw [Model.method?, hmethods] at hm
    obtain ⟨s, hs, htype⟩ := h.typed hm
    exact ⟨s, hsymbols hs, htype⟩

theorem declareField (h : r.HoldsMethods voc count) (owner : NodeId) (v : VarDecl) :
    (declareField voc owner r v).HoldsMethods voc count :=
  h.mono rfl (announces_declareField voc owner r v).symbols

theorem declareMethod (h : r.HoldsMethods voc count) (owner : NodeId) (m : MethodDecl) :
    (declareMethod voc owner r m).HoldsMethods voc (count + 1) where
  size_le := Nat.le_trans (Table.size_insert_le r.methods r.symbols.next m)
    (Nat.add_le_add_right h.size_le 1)
  typed := by
    intro id m' hm
    simp only [Resolver.declareMethod, Model.method?, Table.get?_insert] at hm
    split at hm
    · rename_i heq
      cases hm
      cases eq_of_beq heq
      exact ⟨_, symbol?_addSymbol_next r m.name (.method owner m.params.length)
        (returnType? voc m) m.site, rfl⟩
    · obtain ⟨s, hs, htype⟩ := h.typed hm
      exact ⟨s, (announces_declareMethod voc owner r m).symbols hs, htype⟩

theorem declareMethods (h : r.HoldsMethods voc count) (owner : NodeId) (ms : List MethodDecl) :
    (ms.foldl (Resolver.declareMethod voc owner) r).HoldsMethods voc (count + ms.length) := by
  induction ms generalizing r count with
  | nil => exact h
  | cons m rest ih =>
    rw [List.length_cons, Nat.add_comm rest.length 1, ← Nat.add_assoc]
    exact ih (h.declareMethod owner m)

theorem declareClass (h : r.HoldsMethods voc count) (c : ClassDecl) :
    (declareClass voc r c).HoldsMethods voc (count + c.methods.length) := by
  have hclass :
      (r.addSymbol c.name .type (voc.types.lookup? c.name) c.site).HoldsMethods voc count :=
    h.mono rfl (announces_addSymbol r _ _ _ _).symbols
  have hfields : (c.fields.foldl (Resolver.declareField voc c.id)
      (r.addSymbol c.name .type (voc.types.lookup? c.name) c.site)).HoldsMethods voc count :=
    List.foldlRecOn c.fields _ hclass fun _ hr v _ => hr.declareField c.id v
  exact (hfields.declareMethods c.id c.methods).mono rfl fun hs => hs

theorem declareClasses (h : r.HoldsMethods voc count) (cs : List ClassDecl) :
    (cs.foldl (Resolver.declareClass voc) r).HoldsMethods voc
      (count + (cs.flatMap (·.methods)).length) := by
  induction cs generalizing r count with
  | nil => exact h
  | cons c rest ih =>
    rw [List.flatMap_cons, List.length_append, ← Nat.add_assoc]
    exact ih (h.declareClass c)

end HoldsMethods

end Resolver

variable {u : CompilationUnit} {order : ClassOrder} {signatures : Signatures}

theorem holdsMethods_resolve (order : ClassOrder) (u : CompilationUnit) (signatures : Signatures) :
    (Resolver.run (u.vocabulary order signatures) (u.announced order signatures)
      (ClassDecl.stepsOf u.classes)).HoldsMethods (u.vocabulary order signatures)
        u.allMethods.length := by
  have hempty : ({} : Resolver).HoldsMethods (u.vocabulary order signatures) 0 :=
    ⟨Nat.le_refl 0, nofun⟩
  have hannounced := hempty.declareClasses u.allClasses
  rw [Nat.zero_add] at hannounced
  exact hannounced.mono (Resolver.frame_run _ _ _).methods (Resolver.keeps_run _ _ _).symbols

/-- No more methods have a body than there are methods. -/
theorem length_helpers_resolve (order : ClassOrder) (u : CompilationUnit) (signatures : Signatures)
    (resource : ResourceConfig) :
    ({ model := (resolve order u signatures).model, resource } : Watch).helpers.length ≤
      u.allMethods.length := by
  refine Nat.le_trans (List.length_filter_le _ _) ?_
  rw [Table.keys, List.length_map, resolve_model]
  exact (holdsMethods_resolve order u signatures).size_le

/-- A method that another leads to is one of the unit, has a body and returns a handle. -/
theorem method_of_leadsTo {resource : ResourceConfig} {previous id : SymbolId}
    (h : ({ model := (resolve order u signatures).model, resource } : Watch).LeadsTo previous id) :
    ∃ m ∈ u.allMethods,
      (resolve order u signatures).model.method? id = some m ∧ m.body.isSome = true ∧
      Resolver.returnType? (u.vocabulary order signatures) m = some resource.handleType := by
  obtain ⟨value, -, hvalue⟩ := h
  obtain ⟨site, method, args, target, rfl, htarget, hreturns, hcallee, hbody⟩ :=
    Watch.localHelper?_eq_some_iff.1 hvalue
  obtain ⟨body, hbody⟩ := Option.isSome_iff_exists.1 hbody
  obtain ⟨m, hm, hmbody⟩ := Option.bind_eq_some_iff.1 hbody
  obtain ⟨-, htype⟩ := (coherent_resolve order u signatures).callees htarget hcallee
  refine ⟨m, CompilationUnit.mem_allMethods_of_resolve hm, hm, by rw [hmbody]; rfl, ?_⟩
  have hmodel := hm
  rw [resolve_model] at hmodel
  obtain ⟨s, hs, hstype⟩ := (holdsMethods_resolve order u signatures).typed hmodel
  rw [← hstype, ← hreturns, htype, resolve_model, Model.typeOf?, hs]
  rfl

/-- A search from any method, whatever the finder remembers, comes to an end on a stack that its
calls share, and its calls nest no deeper than the unit has methods, and one more. It writes down
the first call and, for each call, those that `classify` makes itself. Every call finds the stack
without repetitions, and leaves it as it was; what stands on it, but for the first, are methods of
the unit that have a body and return a handle. The cut of an answer is a place on the stack. -/
theorem Finder.descend_resolve (order : ClassOrder) (u : CompilationUnit) (signatures : Signatures)
    (resource : ResourceConfig) (f : Finder) (helper : SymbolId) :
    let w : Watch := { model := (resolve order u signatures).model, resource }
    ∃ v g calls, f.helperCreates w helper = (v.creates, g) ∧
      descend w (u.allMethods.length + 1) helper (some { finder := f, stack := [] }) =
        (v, some { finder := g, stack := [], calls }) ∧
      (calls.map Call.toQuestion).Perm
        (⟨helper, f, []⟩ :: calls.flatMap fun call => call.next w) ∧
      ∀ call ∈ calls,
        call.verdict = (call.asked.classify w call.helper call.before).1 ∧
        call.before.length ≤ u.allMethods.length ∧ call.after = call.before ∧
        (call.during = call.before ∨ call.during = call.before ++ [call.helper]) ∧
        call.before.Nodup ∧ call.during.Nodup ∧
        (∀ id ∈ call.during.tail, ∃ m ∈ u.allMethods, w.model.method? id = some m ∧
          m.body.isSome = true ∧
          Resolver.returnType? (u.vocabulary order signatures) m = some resource.handleType) ∧
        ∀ depth, call.verdict.cut = some depth → depth < call.after.length := by
  intro w
  have hcount : w.helpers.length ≤ u.allMethods.length :=
    length_helpers_resolve order u signatures resource
  have hfollows : Follows w { finder := f } [⟨helper, f, []⟩] (f.classify w helper [])
      (descend w (u.allMethods.length + 1) helper (some { finder := f })) :=
    follows_descend (Below.root w helper) (by simp only [List.length_nil]; omega)
  obtain ⟨calls, hlogged, hresult⟩ := hfollows
  refine ⟨_, _, _, rfl, hresult, hlogged.complete, fun call hm => ?_⟩
  obtain ⟨hbelow, hduring, hafter, hverdict⟩ := hlogged.orderly call hm
  have hnodup : call.during.Nodup := by
    rcases hduring with hduring | ⟨hp, hduring⟩
    · exact hduring ▸ hbelow.distinct
    · exact hduring ▸ hbelow.nodup_concat hp
  have hway : call.during.tail ⊆ (call.before ++ [call.helper]).tail := by
    rcases hduring with hduring | ⟨-, hduring⟩
    · rw [hduring]
      exact ((List.prefix_append _ _).sublist.tail).subset
    · rw [hduring]
      exact List.Subset.refl _
  refine ⟨hverdict, hbelow.length_le.trans hcount, hafter, hduring.imp_right And.right,
    hbelow.distinct, hnodup, fun id hid => ?_, fun depth hd => ?_⟩
  · obtain ⟨previous, hl⟩ := hbelow.led (hway hid)
    exact method_of_leadsTo hl
  · rw [hverdict] at hd
    obtain ⟨method, hmethod, -⟩ :=
      (classify_explored call.helper call.before call.asked hbelow.leads).2 depth hd
    rw [hafter]
    exact (List.getElem?_eq_some_iff.1 hmethod).1

/-- Two methods that lead to each other need all three calls. -/
example :
    let w : Watch :=
      { model := (resolve .increasing cyclicUnit poolSignatures).model, resource := poolResource }
    (Finder.descend w 2 1 (some { finder := {} })).2.isNone = true ∧
    ((Finder.descend w 3 1 (some { finder := {} })).2.map fun s =>
        s.calls.map fun call => (call.helper, call.before, call.during, call.verdict.cut)) =
      some [(1, [1, 2], [1, 2], some 0), (2, [1], [1, 2], some 0), (1, [1, 2], [1, 2], some 0),
        (2, [1], [1, 2], some 0), (1, [], [1], none)] := by
  decide +kernel

end HandleLint
