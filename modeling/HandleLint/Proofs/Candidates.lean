import HandleLint.Proofs.Classification
import Mathlib.Data.List.Induction
import Mathlib.Data.List.Nodup

/-!
# Candidates by their positions

The candidates of a method are gathered in one pass over its events. Where an event stands decides
what it does to them: a local is a candidate from the first binding that opens a handle and that no
return of the local follows.

* `Finder.step_cases`: what one event does to the candidates;
* `Watch.HeldFrom`: the position from which a local holds a handle, to the end;
* `Tracks`: a set of candidates is the one that positions describe, the invariant of the pass;
* `Finder.tracks_find`: the candidates of a method.
-/

namespace HandleLint

namespace Watch

variable {w : Watch} {id : SymbolId}

/-- The event binds a new handle to the local. -/
def Opens (w : Watch) (id : SymbolId) (creation : Creation) (event : Event) : Prop :=
  ∃ target value, event = .bind target value ∧ w.boundLocal? target = some id ∧
    w.CreatesAs value creation

/-- The event returns an identifier that refers to the local. -/
def Returns (w : Watch) (id : SymbolId) (event : Event) : Prop :=
  ∃ value, event = .returned value ∧ w.model.identReference? value = some id

/-- What a binding writes to, of whatever kind. -/
def written? (w : Watch) : BindTarget → Option SymbolId
  | .declared v => w.model.declaration? v.id
  | .assigned e => w.model.identReference? e

/-- A binding counts only where it writes to a variable of a body that is not a resource. -/
theorem boundLocal?_eq_some_iff {target : BindTarget} :
    w.boundLocal? target = some id ↔ w.written? target = some id ∧
      ∃ symbol origin, w.model.symbol? id = some symbol ∧ symbol.kind = .var origin ∧
        origin ≠ .tryResource := by
  cases target
  all_goals
    simp only [boundLocal?, written?, Option.bind_eq_bind, Option.bind_eq_some_iff]
    constructor
    · rintro ⟨id', hw, symbol, hs, h⟩
      cases hk : symbol.kind with
      | var origin =>
        rw [hk] at h
        obtain ⟨hne, he⟩ := Option.ite_none_left_eq_some.1 h
        cases he
        exact ⟨hw, symbol, origin, hs, hk, hne⟩
      | _ =>
        rw [hk] at h
        cases h
    · rintro ⟨hw, symbol, origin, hs, hk, hne⟩
      refine ⟨id, hw, symbol, hs, ?_⟩
      rw [hk]
      exact if_neg hne

theorem CreatesAs.unique {value : Expr} {c c' : Creation} (h : w.CreatesAs value c)
    (h' : w.CreatesAs value c') : c = c' := by
  cases c with
  | factory =>
    cases c' with
    | factory => rfl
    | helper m => exact absurd (h.symm.trans h'.1) (by decide)
  | helper m =>
    cases c' with
    | factory => exact absurd (h'.symm.trans h.1) (by decide)
    | helper m' => exact congrArg _ (Option.some.inj (h.2.1.symm.trans h'.2.1))

theorem exists_createsAs_iff {value : Expr} :
    (∃ c, w.CreatesAs value c) ↔ w.isFactoryCall value = true ∨
      ∃ helper, w.localHelper? value = some helper ∧ w.ReachesFactory helper := by
  constructor
  · rintro ⟨c, hc⟩
    cases c with
    | factory => exact .inl hc
    | helper method => exact .inr ⟨method, hc.2⟩
  · rintro (hf | ⟨method, hm, hr⟩)
    · exact ⟨.factory, hf⟩
    · cases hf : w.isFactoryCall value with
      | true => exact ⟨.factory, hf⟩
      | false => exact ⟨.helper method, hf, hm, hr⟩

theorem Opens.unique {id' : SymbolId} {c c' : Creation} {event : Event} (h : w.Opens id c event)
    (h' : w.Opens id' c' event) : id = id' ∧ c = c' := by
  obtain ⟨target, value, rfl, ht, hv⟩ := h
  obtain ⟨target', value', he, ht', hv'⟩ := h'
  cases he
  exact ⟨Option.some.inj (ht.symm.trans ht'), hv.unique hv'⟩

theorem Returns.not_opens {id' : SymbolId} {c : Creation} {event : Event} (h : w.Returns id event) :
    ¬ w.Opens id' c event := by
  obtain ⟨value, rfl, -⟩ := h
  rintro ⟨target, value', he, -⟩
  cases he

theorem Returns.unique {id' : SymbolId} {event : Event} (h : w.Returns id event)
    (h' : w.Returns id' event) : id = id' := by
  obtain ⟨value, rfl, hv⟩ := h
  obtain ⟨value', he, hv'⟩ := h'
  cases he
  exact Option.some.inj (hv.symm.trans hv')

end Watch

namespace Watch

variable {w : Watch} {events : List Event} {event : Event} {id : SymbolId} {c : Creation} {i : Nat}

/-! ## Positions -/

/-- The event at a position binds a new handle to the local. -/
def OpensAt (w : Watch) (events : List Event) (id : SymbolId) (c : Creation) (i : Nat) : Prop :=
  ∃ event, events[i]? = some event ∧ w.Opens id c event

/-- An event after a position returns the local. -/
def ReturnedAfter (w : Watch) (events : List Event) (id : SymbolId) (i : Nat) : Prop :=
  ∃ j event, i < j ∧ events[j]? = some event ∧ w.Returns id event

/-- The local holds a handle from a position on, to the end: the first position that opens one for
it and that no return of the local follows. -/
structure HeldFrom (w : Watch) (events : List Event) (id : SymbolId) (c : Creation) (i : Nat) :
    Prop where
  opens : w.OpensAt events id c i
  kept : ¬ w.ReturnedAfter events id i
  first : ∀ k c', k < i → w.OpensAt events id c' k → w.ReturnedAfter events id k

theorem OpensAt.lt_length (h : w.OpensAt events id c i) : i < events.length := by
  obtain ⟨event, he, -⟩ := h
  exact (List.getElem?_eq_some_iff.1 he).1

theorem HeldFrom.unique {c' : Creation} {j : Nat} (h : w.HeldFrom events id c i)
    (h' : w.HeldFrom events id c' j) : i = j ∧ c = c' := by
  have hij : i = j := by
    rcases Nat.lt_trichotomy i j with hlt | heq | hlt
    · exact absurd (h'.first i c hlt h.opens) h.kept
    · exact heq
    · exact absurd (h.first j c' hlt h'.opens) h'.kept
  subst hij
  obtain ⟨event, he, ho⟩ := h.opens
  obtain ⟨event', he', ho'⟩ := h'.opens
  cases he.symm.trans he'
  exact ⟨rfl, (ho.unique ho').2⟩

/-- A local that some position opens for good holds a handle from the first such position on. -/
theorem exists_heldFrom (h : w.OpensAt events id c i) (hk : ¬ w.ReturnedAfter events id i) :
    ∃ c' j, w.HeldFrom events id c' j := by
  induction i using Nat.strongRecOn generalizing c with
  | _ i ih =>
  by_cases hfirst : ∀ k c', k < i → w.OpensAt events id c' k → w.ReturnedAfter events id k
  · exact ⟨c, i, h, hk, hfirst⟩
  · simp only [not_forall] at hfirst
    obtain ⟨k, c', hlt, ho, hr⟩ := hfirst
    exact ih k hlt ho hr

/-! ## One more event -/

/-- An event of a longer list is an event of the list, or the last one. -/
theorem getElem?_concat_iff {e : Event} : (events ++ [event])[i]? = some e ↔
    events[i]? = some e ∨ i = events.length ∧ e = event := by
  constructor
  · intro he
    rcases Nat.lt_trichotomy i events.length with hlt | rfl | hgt
    · rw [List.getElem?_append_left hlt] at he
      exact .inl he
    · rw [List.getElem?_concat_length] at he
      cases he
      exact .inr ⟨rfl, rfl⟩
    · rw [List.getElem?_eq_none (by rw [List.length_append]; exact hgt)] at he
      cases he
  · rintro (he | ⟨rfl, rfl⟩)
    · rw [List.getElem?_append_left (List.getElem?_eq_some_iff.1 he).1, he]
    · exact List.getElem?_concat_length

theorem opensAt_concat : w.OpensAt (events ++ [event]) id c i ↔
    w.OpensAt events id c i ∨ i = events.length ∧ w.Opens id c event := by
  constructor
  · rintro ⟨e, he, ho⟩
    rcases getElem?_concat_iff.1 he with he | ⟨rfl, rfl⟩
    · exact .inl ⟨e, he, ho⟩
    · exact .inr ⟨rfl, ho⟩
  · rintro (⟨e, he, ho⟩ | ⟨rfl, ho⟩)
    · exact ⟨e, getElem?_concat_iff.2 (.inl he), ho⟩
    · exact ⟨event, getElem?_concat_iff.2 (.inr ⟨rfl, rfl⟩), ho⟩

theorem returnedAfter_concat : w.ReturnedAfter (events ++ [event]) id i ↔
    w.ReturnedAfter events id i ∨ i < events.length ∧ w.Returns id event := by
  constructor
  · rintro ⟨j, e, hij, he, hr⟩
    rcases getElem?_concat_iff.1 he with he | ⟨rfl, rfl⟩
    · exact .inl ⟨j, e, hij, he, hr⟩
    · exact .inr ⟨hij, hr⟩
  · rintro (⟨j, e, hij, he, hr⟩ | ⟨hlt, hr⟩)
    · exact ⟨j, e, hij, getElem?_concat_iff.2 (.inl he), hr⟩
    · exact ⟨events.length, event, hlt, getElem?_concat_iff.2 (.inr ⟨rfl, rfl⟩), hr⟩

/-- A return ends all holding of the local that it returns. -/
theorem not_heldFrom_concat (h : w.Returns id event) : ¬ w.HeldFrom (events ++ [event]) id c i := by
  intro hh
  refine hh.kept (returnedAfter_concat.2 (.inr ⟨?_, h⟩))
  rcases opensAt_concat.1 hh.opens with ho | ⟨-, ho⟩
  · exact ho.lt_length
  · exact absurd ho h.not_opens

/-- An event that does not return a local leaves its holding as it is, unless it is the one that
opens the first handle of the local since its last return. -/
theorem heldFrom_concat (h : ¬ w.Returns id event) :
    w.HeldFrom (events ++ [event]) id c i ↔ w.HeldFrom events id c i ∨
      i = events.length ∧ w.Opens id c event ∧ ¬ ∃ c' j, w.HeldFrom events id c' j := by
  have hret : ∀ k, w.ReturnedAfter (events ++ [event]) id k ↔ w.ReturnedAfter events id k :=
    fun k => by rw [returnedAfter_concat, or_iff_left fun hr => h hr.2]
  constructor
  · rintro ⟨ho, hk, hfirst⟩
    rw [hret] at hk
    rcases opensAt_concat.1 ho with ho' | ⟨rfl, ho'⟩
    · exact .inl ⟨ho', hk, fun k c' hlt hk' =>
        (hret k).1 (hfirst k c' hlt (opensAt_concat.2 (.inl hk')))⟩
    · refine .inr ⟨rfl, ho', fun ⟨c', j, hj⟩ => hj.kept ?_⟩
      exact (hret j).1 (hfirst j c' hj.opens.lt_length (opensAt_concat.2 (.inl hj.opens)))
  · rintro (⟨ho, hk, hfirst⟩ | ⟨rfl, ho, hnone⟩)
    · refine ⟨opensAt_concat.2 (.inl ho), fun hr => hk ((hret i).1 hr), fun k c' hlt hk' => ?_⟩
      rcases opensAt_concat.1 hk' with hk' | ⟨rfl, -⟩
      · exact (hret k).2 (hfirst k c' hlt hk')
      · exact absurd ho.lt_length (Nat.lt_asymm hlt)
    · refine ⟨opensAt_concat.2 (.inr ⟨rfl, ho⟩), fun hr => ?_, fun k c' hlt hk' => ?_⟩
      · obtain ⟨j, e, hlt, he, -⟩ := (hret _).1 hr
        exact absurd (List.getElem?_eq_some_iff.1 he).1 (Nat.lt_asymm hlt)
      · rcases opensAt_concat.1 hk' with hk' | ⟨rfl, -⟩
        · exact (hret k).2 (by_contra fun hr => hnone (exists_heldFrom hk' hr))
        · exact absurd hlt (Nat.lt_irrefl _)

end Watch

namespace CandidateSet

@[simp] theorem contains_iff {s : CandidateSet} {id : SymbolId} :
    s.contains id = true ↔ id ∈ s.symbols := by
  simp [contains, symbols]

theorem insert_of_mem {s : CandidateSet} {id : SymbolId} (h : id ∈ s.symbols) (c : Creation) :
    s.insert id c = s := by
  rw [insert, if_pos (contains_iff.2 h)]

theorem insert_of_not_mem {s : CandidateSet} {id : SymbolId} (h : id ∉ s.symbols) (c : Creation) :
    (s.insert id c).entries = s.entries ++ [(id, c)] := by
  rw [insert, if_neg (fun hc => h (contains_iff.1 hc))]

theorem erase_of_not_mem {s : CandidateSet} {id : SymbolId} (h : id ∉ s.symbols) :
    s.erase id = s := by
  have hself : s.entries.filter (·.1 ≠ id) = s.entries := by
    refine List.filter_eq_self.2 fun entry hm => decide_eq_true fun he => h ?_
    exact List.mem_map.2 ⟨entry, hm, he⟩
  rw [erase, hself]

end CandidateSet

namespace Finder

variable {w : Watch} {f : Finder}

/-- What one event does: it adds a local that it binds to a new handle, erases a local that it
returns, or changes nothing. -/
theorem step_cases (hf : Sound w f) (method : String) (set : CandidateSet) (event : Event) :
    Sound w (step w method set f event).2 ∧
    ((∃ id creation, w.Opens id creation event ∧
        (step w method set f event).1 = set.insert id creation) ∨
      (∃ id, w.Returns id event ∧ (step w method set f event).1 = set.erase id) ∨
      ((∀ id creation, ¬ w.Opens id creation event) ∧ (∀ id, ¬ w.Returns id event) ∧
        (step w method set f event).1 = set)) := by
  cases event with
  | call site receiver name args =>
    refine ⟨hf, .inr (.inr ⟨?_, ?_, rfl⟩)⟩
    · rintro id creation ⟨target, value, he, -⟩
      cases he
    · rintro id ⟨value, he, -⟩
      cases he
  | returned value =>
    have hopens : ∀ id creation, ¬ w.Opens id creation (.returned value) := by
      rintro id creation ⟨target, value', he, -⟩
      cases he
    cases hid : w.model.identReference? value with
    | none =>
      simp only [step, hid]
      refine ⟨hf, .inr (.inr ⟨hopens, ?_, trivial⟩)⟩
      rintro id ⟨value', he, hr⟩
      cases he
      rw [hid] at hr
      cases hr
    | some id =>
      by_cases hc : set.contains id = true
      · simp only [step, hid, hc, if_true]
        exact ⟨hf.note _, .inr (.inl ⟨id, ⟨value, rfl, hid⟩, rfl⟩)⟩
      · simp only [step, hid, hc]
        refine ⟨hf, .inr (.inl ⟨id, ⟨value, rfl, hid⟩, ?_⟩)⟩
        exact (CandidateSet.erase_of_not_mem fun hm => hc (CandidateSet.contains_iff.2 hm)).symm
  | bind target value =>
    have hreturns : ∀ id, ¬ w.Returns id (.bind target value) := by
      rintro id ⟨value', he, -⟩
      cases he
    cases ht : w.boundLocal? target with
    | none =>
      simp only [step, ht]
      refine ⟨hf, .inr (.inr ⟨?_, hreturns, trivial⟩)⟩
      rintro id creation ⟨target', value', he, ht', -⟩
      cases he
      rw [ht] at ht'
      cases ht'
    | some id =>
      have hsound := hf.creation? value
      have hiff := @creation?_eq_some_iff w f hf value
      simp only [step, ht]
      rcases hcr : f.creation? w value with ⟨_ | creation, g⟩
      · rw [hcr] at hsound hiff
        refine ⟨hsound, .inr (.inr ⟨?_, hreturns, rfl⟩)⟩
        rintro id' creation ⟨target', value', he, -, hv⟩
        cases he
        cases hiff.2 hv
      · rw [hcr] at hsound hiff
        exact ⟨hsound.note _, .inl ⟨id, creation, ⟨target, value, rfl, ht, hiff.1 rfl⟩, rfl⟩⟩

end Finder

/-! ## The pass over the events -/

/-- A set of candidates is the one that the events describe by their positions. -/
structure Tracks (w : Watch) (events : List Event) (set : CandidateSet) : Prop where
  mem_iff : ∀ id c, (id, c) ∈ set.entries ↔ ∃ i, w.HeldFrom events id c i
  ordered : set.entries.Pairwise fun a b =>
    ∀ i j, w.HeldFrom events a.1 a.2 i → w.HeldFrom events b.1 b.2 j → i < j

namespace Tracks

variable {w : Watch} {events events' : List Event} {event : Event} {set : CandidateSet}
  {id : SymbolId} {c : Creation}

theorem nil (w : Watch) : Tracks w [] {} := by
  refine ⟨fun id c => iff_of_false List.not_mem_nil ?_, .nil⟩
  rintro ⟨i, h⟩
  exact absurd h.opens.lt_length (Nat.not_lt_zero i)

theorem mem_symbols_iff (h : Tracks w events set) :
    id ∈ set.symbols ↔ ∃ c i, w.HeldFrom events id c i := by
  simp only [CandidateSet.symbols, List.mem_map, ← h.mem_iff]
  constructor
  · rintro ⟨⟨_, c⟩, hm, rfl⟩
    exact ⟨c, hm⟩
  · rintro ⟨c, hm⟩
    exact ⟨(id, c), hm, rfl⟩

/-- No local is a candidate twice. -/
theorem nodup_symbols (h : Tracks w events set) : set.symbols.Nodup := by
  refine List.pairwise_map.2 (h.ordered.imp_of_mem fun {a b} ha hb hab he => ?_)
  obtain ⟨i, hi⟩ := (h.mem_iff _ _).1 ha
  obtain ⟨j, hj⟩ := (h.mem_iff _ _).1 hb
  have hlt := hab i j hi hj
  rw [← he] at hj
  exact absurd (hi.unique hj).1 (Nat.ne_of_lt hlt)

/-- The events alone determine the candidates and their order. -/
theorem unique {set' : CandidateSet} (h : Tracks w events set) (h' : Tracks w events set') :
    set = set' := by
  have hperm : set.entries.Perm set'.entries := by
    refine (List.perm_ext_iff_of_nodup ?_ ?_).2 fun entry => ?_
    · exact List.Nodup.of_map _ h.nodup_symbols
    · exact List.Nodup.of_map _ h'.nodup_symbols
    · exact (h.mem_iff _ _).trans (h'.mem_iff _ _).symm
  have heq : set.entries = set'.entries := by
    refine List.Perm.eq_of_pairwise (fun a b ha hb hab hba => ?_) h.ordered h'.ordered hperm
    obtain ⟨i, hi⟩ := (h.mem_iff _ _).1 ha
    obtain ⟨j, hj⟩ := (h'.mem_iff _ _).1 hb
    exact absurd (hab i j hi hj) (Nat.lt_asymm (hba j i hj hi))
  cases set
  cases set'
  cases heq
  rfl

theorem creation?_eq_some_iff (h : Tracks w events set) :
    set.creation? id = some c ↔ ∃ i, w.HeldFrom events id c i := by
  have hmem : ∀ c', set.creation? id = some c' → (id, c') ∈ set.entries := by
    intro c' hc
    obtain ⟨l₁, l₂, hl, -⟩ := List.lookup_eq_some_iff.1 hc
    rw [hl]
    exact List.mem_append_right _ List.mem_cons_self
  rw [← h.mem_iff]
  refine ⟨hmem c, fun hm => ?_⟩
  cases hc : set.creation? id with
  | none =>
    have hno := List.lookup_eq_none_iff.1 hc (id, c) hm
    simp at hno
  | some c' =>
    obtain ⟨i, hi⟩ := (h.mem_iff _ _).1 hm
    obtain ⟨j, hj⟩ := (h.mem_iff _ _).1 (hmem c' hc)
    rw [(hi.unique hj).2]

theorem congr {w' : Watch} (h : Tracks w events set)
    (hheld : ∀ id c i, w'.HeldFrom events' id c i ↔ w.HeldFrom events id c i) :
    Tracks w' events' set := by
  refine ⟨fun id c => ?_, ?_⟩
  · simp only [h.mem_iff, hheld]
  · simpa only [hheld] using h.ordered

/-- A binding that opens a handle adds its local at the end, unless it is there already. -/
theorem concat_opens (h : Tracks w events set) (ho : w.Opens id c event) :
    Tracks w (events ++ [event]) (set.insert id c) := by
  have hheld : ∀ id' c' i, w.HeldFrom (events ++ [event]) id' c' i ↔ w.HeldFrom events id' c' i ∨
      i = events.length ∧ w.Opens id' c' event ∧ ¬ ∃ c'' j, w.HeldFrom events id' c'' j :=
    fun _ _ _ => Watch.heldFrom_concat fun hr => hr.not_opens ho
  by_cases hm : id ∈ set.symbols
  · rw [CandidateSet.insert_of_mem hm]
    refine h.congr fun id' c' i => (hheld id' c' i).trans (or_iff_left ?_)
    rintro ⟨-, ho', hnone⟩
    obtain ⟨rfl, -⟩ := ho.unique ho'
    exact hnone (h.mem_symbols_iff.1 hm)
  · -- from here on the new event is the one position from which the local is held
    have hnone : ¬ ∃ c' j, w.HeldFrom events id c' j := fun hh => hm (h.mem_symbols_iff.2 hh)
    have hlast : w.HeldFrom (events ++ [event]) id c events.length :=
      (hheld id c _).2 (.inr ⟨rfl, ho, hnone⟩)
    have hold : ∀ entry ∈ set.entries, ∀ i,
        w.HeldFrom (events ++ [event]) entry.1 entry.2 i ↔ w.HeldFrom events entry.1 entry.2 i := by
      intro entry he i
      refine (hheld _ _ _).trans (or_iff_left ?_)
      rintro ⟨-, -, hn⟩
      exact hn ⟨entry.2, (h.mem_iff entry.1 entry.2).1 he⟩
    refine ⟨fun id' c' => ?_, ?_⟩
    · rw [CandidateSet.insert_of_not_mem hm, List.mem_append, List.mem_singleton, h.mem_iff]
      constructor
      · rintro (⟨i, hi⟩ | he)
        · exact ⟨i, (hheld _ _ _).2 (.inl hi)⟩
        · cases he
          exact ⟨_, hlast⟩
      · rintro ⟨i, hi⟩
        rcases (hheld _ _ _).1 hi with hi | ⟨-, ho', -⟩
        · exact .inl ⟨i, hi⟩
        · obtain ⟨rfl, rfl⟩ := ho.unique ho'
          exact .inr rfl
    · rw [CandidateSet.insert_of_not_mem hm]
      refine List.pairwise_append.2 ⟨?_, List.pairwise_singleton _ _, fun a ha b hb i j hi hj => ?_⟩
      · refine h.ordered.imp_of_mem fun {a b} ha hb hab i j hi hj => ?_
        exact hab i j ((hold a ha i).1 hi) ((hold b hb j).1 hj)
      · rw [List.mem_singleton] at hb
        subst hb
        rw [(hj.unique hlast).1]
        exact ((hold a ha i).1 hi).opens.lt_length

/-- A return erases its local, and it alone. -/
theorem concat_returns (h : Tracks w events set) (hr : w.Returns id event) :
    Tracks w (events ++ [event]) (set.erase id) := by
  have hheld : ∀ id' c' i, w.HeldFrom (events ++ [event]) id' c' i ↔
      w.HeldFrom events id' c' i ∧ id' ≠ id := by
    intro id' c' i
    by_cases hid : id' = id
    · subst hid
      exact iff_of_false (Watch.not_heldFrom_concat hr) fun hh => hh.2 rfl
    · rw [Watch.heldFrom_concat fun hr' => hid (hr'.unique hr), and_iff_left hid]
      exact or_iff_left fun hh => hr.not_opens hh.2.1
  refine ⟨fun id' c' => ?_, ?_⟩
  · simp only [CandidateSet.erase, List.mem_filter, h.mem_iff, hheld, decide_eq_true_eq,
      exists_and_right]
  · refine (h.ordered.filter _).imp fun {a b} hab i j hi hj => ?_
    exact hab i j ((hheld _ _ _).1 hi).1 ((hheld _ _ _).1 hj).1

/-- One event of the pass. -/
theorem step {f : Finder} (h : Tracks w events set) (hf : f.Sound w) (method : String)
    (event : Event) : Tracks w (events ++ [event]) (Finder.step w method set f event).1 := by
  obtain ⟨-, ⟨id, c, ho, hset⟩ | ⟨id, hr, hset⟩ | ⟨hno, hnr, hset⟩⟩ :=
    Finder.step_cases hf method set event
  · exact hset ▸ h.concat_opens ho
  · exact hset ▸ h.concat_returns hr
  · rw [hset]
    refine h.congr fun id c i => (Watch.heldFrom_concat (hnr id)).trans (or_iff_left ?_)
    exact fun hh => hno id c hh.2.1

end Tracks

namespace Finder

variable {w : Watch} {f : Finder}

/-- The pass over the events of a body keeps what is remembered right, and its candidates are those
that the events describe. -/
theorem tracks_foldl_step (hf : Sound w f) (method : String) (events : List Event) :
    Sound w (events.foldl (fun (set, f) event => step w method set f event) ({}, f)).2 ∧
    Tracks w events (events.foldl (fun (set, f) event => step w method set f event) ({}, f)).1 := by
  induction events using List.reverseRecOn with
  | nil => exact ⟨hf, .nil w⟩
  | append_singleton events event ih =>
    rw [List.foldl_append, List.foldl_cons, List.foldl_nil]
    exact ⟨(step_cases ih.1 method _ event).1, ih.2.step ih.1 method event⟩

/-- A method without a body has no events, and so no candidates. -/
theorem find_eq_foldl (w : Watch) (f : Finder) (method : MethodDecl) :
    f.find w method = (eventsOf .skip (method.body.getD [])).foldl
      (fun (set, f) event => step w method.name set f event) ({}, f) := by
  rw [find]
  cases method.body with
  | none => rfl
  | some body => rfl

theorem Sound.find (hf : Sound w f) (method : MethodDecl) : Sound w (f.find w method).2 := by
  rw [find_eq_foldl]
  exact (tracks_foldl_step hf _ _).1

theorem tracks_find (hf : Sound w f) (method : MethodDecl) :
    Tracks w (eventsOf .skip (method.body.getD [])) (f.find w method).1 := by
  rw [find_eq_foldl]
  exact (tracks_foldl_step hf _ _).2

end Finder

end HandleLint
