import HandleLint.Handles.Finder
import HandleLint.Proofs.HelperGraph

/-!
# Classification answers reachability

`Finder.classify` searches the helper graph depth first, cuts cycles and remembers what is settled.
None of this shows in its answers:

* `Finder.Sound`: what a search remembers is right, the invariant of every search;
* `Verdict.Holds`: a verdict below a path is right, where "no" speaks only of ways that keep out of
  the methods at or beyond the cut;
* `Finder.classify_holds`: a search keeps the invariant and its verdict holds;
* `Finder.helperCreates_iff`, `Finder.creation?_eq_some_iff`: what a finder that remembers nothing
  wrong answers.
-/

namespace HandleLint

/-- The methods of a path at or beyond a cut; without a cut there are none. -/
def Verdict.beyond (path : List SymbolId) : Option Nat → Set SymbolId
  | none => ∅
  | some depth => {m | m ∈ path.drop depth}

/-- A verdict on a method below a path is right. A "no" may owe to the cut: only ways that keep out
of the methods at or beyond it are known not to lead to the factory. -/
structure Verdict.Holds (w : Watch) (path : List SymbolId) (method : SymbolId) (v : Verdict) :
    Prop where
  yes : v.creates = true → w.ReachesFactory method
  no : v.creates = false → ¬ w.ReachesOutside (beyond path v.cut) method

namespace Finder

open Verdict (beyond)

variable {w : Watch} {f : Finder}

/-- What is settled is right. -/
def Sound (w : Watch) (f : Finder) : Prop :=
  ∀ method known, f.memo.get? method = some known → (known = true ↔ w.ReachesFactory method)

theorem sound_fresh (w : Watch) : Sound w {} := by
  intro method known h
  cases h

theorem Sound.of_memo_eq {g : Finder} (h : Sound w f) (hm : g.memo = f.memo) : Sound w g := by
  intro method known hk
  rw [hm] at hk
  exact h method known hk

@[simp] theorem note_memo (f : Finder) (n : Note) : (f.note n).memo = f.memo := rfl

theorem Sound.note (h : Sound w f) (n : Note) : Sound w (f.note n) :=
  h.of_memo_eq rfl

/-! ## Cuts -/

theorem beyond_shallower_left (path : List SymbolId) (a b : Option Nat) :
    beyond path a ⊆ beyond path (shallower a b) := by
  cases a with
  | none => exact Set.empty_subset _
  | some a =>
    cases b with
    | none => exact subset_rfl
    | some b => exact fun m hm => List.drop_subset_drop_left path (Nat.min_le_left a b) hm

theorem beyond_shallower_right (path : List SymbolId) (a b : Option Nat) :
    beyond path b ⊆ beyond path (shallower a b) := by
  cases a with
  | none => exact subset_rfl
  | some a =>
    cases b with
    | none => exact Set.empty_subset _
    | some b => exact fun m hm => List.drop_subset_drop_left path (Nat.min_le_right a b) hm

/-- Leaving a method, only the cuts above it count, and the method itself. -/
theorem beyond_concat (path : List SymbolId) (method : SymbolId) (cut : Option Nat) :
    beyond (path ++ [method]) cut ⊆ insert method (beyond path (cut.filter (· < path.length))) := by
  cases cut with
  | none => exact Set.empty_subset _
  | some depth =>
    intro m hm
    replace hm : m ∈ (path ++ [method]).drop depth := hm
    rw [List.drop_append, List.mem_append] at hm
    rcases hm with hm | hm
    · have hlt : depth < path.length := by
        refine Nat.lt_of_not_le fun hle => ?_
        rw [List.drop_eq_nil_of_le hle] at hm
        cases hm
      refine Set.mem_insert_of_mem _ ?_
      rw [Option.filter_some, if_pos (by simpa using hlt)]
      exact hm
    · exact Set.mem_insert_iff.2 (.inl (List.mem_singleton.1 (List.mem_of_mem_drop hm)))

/-! ## One search -/

theorem classify_known {helper : SymbolId} {path : List SymbolId} {known : Bool}
    (hk : f.memo.get? helper = some known) :
    f.classify w helper path = ({ creates := known }, f) := by
  rw [classify, hk]

/-- A method on the path is not searched again: the verdict is cut at its place there. -/
theorem classify_cut {helper : SymbolId} {path : List SymbolId} {depth : Nat}
    (hk : f.memo.get? helper = none) (hd : path.idxOf? helper = some depth) :
    f.classify w helper path = ({ creates := false, cut := some depth }, f) := by
  rw [classify, hk, hd]

/-- A method that is not known and not on the path is searched through its sources. -/
theorem classify_search {helper : SymbolId} {path : List SymbolId} (hk : f.memo.get? helper = none)
    (hp : helper ∉ path) :
    f.classify w helper path =
      ((w.sources helper).foldl (consult fun next f => f.classify w next (path ++ [helper]))
        ({ creates := false }, f)).2.conclude w helper path.length
      ((w.sources helper).foldl (consult fun next f => f.classify w next (path ++ [helper]))
        ({ creates := false }, f)).1 := by
  rw [classify, hk, List.idxOf?_eq_none_iff.2 hp]
  by_cases hm : helper ∈ w.helpers
  · simp only [dif_pos (And.intro hm hp)]
  · simp only [dif_neg (fun h : helper ∈ w.helpers ∧ helper ∉ path => hm h.1),
      Watch.sources_eq_nil_of_not_mem_helpers hm, List.foldl_nil]

/-- Induction along a search: it goes deeper only while there are methods that are not on the path
yet. -/
theorem classify_induction (w : Watch) {motive : SymbolId → List SymbolId → Finder → Prop}
    (known : ∀ helper path f known, f.memo.get? helper = some known → motive helper path f)
    (cut : ∀ helper path f depth, f.memo.get? helper = none → path.idxOf? helper = some depth →
      motive helper path f)
    (search : ∀ helper path f, f.memo.get? helper = none → helper ∉ path →
      (∀ next, .helper next ∈ w.sources helper → ∀ g, motive next (path ++ [helper]) g) →
      motive helper path f)
    (helper : SymbolId) (path : List SymbolId) (f : Finder) : motive helper path f := by
  induction hn : (offPath w path).length using Nat.strongRecOn generalizing helper path f with
  | _ n ih =>
  cases hk : f.memo.get? helper with
  | some answer => exact known helper path f answer hk
  | none =>
  cases hd : path.idxOf? helper with
  | some depth => exact cut helper path f depth hk hd
  | none =>
    have hp : helper ∉ path := List.idxOf?_eq_none_iff.1 hd
    refine search helper path f hk hp fun next hs g => ?_
    have hm : helper ∈ w.helpers := Watch.mem_helpers_of_mem_sources hs
    exact ih _ (hn ▸ length_offPath_lt hm hp) next (path ++ [helper]) g rfl

/-- The factory, or a method from which it is reached. -/
def Fruitful (w : Watch) : Creation → Prop
  | .factory => True
  | .helper next => w.ReachesFactory next

/-- A method from which the factory is not reached outside of the methods in `closed`. -/
def Barren (w : Watch) (closed : Set SymbolId) : Creation → Prop
  | .factory => False
  | .helper next => ¬ w.ReachesOutside closed next

theorem Barren.mono {closed closed' : Set SymbolId} {source : Creation}
    (h : Barren w closed source) (hsub : closed ⊆ closed') : Barren w closed' source := by
  cases source with
  | factory => exact h
  | helper next => exact fun hr => h (hr.mono hsub)

/-- What sources that are taken into account leave behind: a "yes" has a source that is fruitful,
and a "no" only sources that are barren outside of the cut. -/
theorem foldl_consult {search : SymbolId → Finder → Verdict × Finder} {path : List SymbolId}
    {sources : List Creation}
    (hsearch : ∀ next, .helper next ∈ sources → ∀ f, Sound w f →
      Sound w (search next f).2 ∧ (search next f).1.Holds w path next)
    {s : Verdict × Finder} (hs : Sound w s.2) :
    Sound w (sources.foldl (consult search) s).2 ∧
    ((sources.foldl (consult search) s).1.creates = true →
      s.1.creates = true ∨ ∃ source ∈ sources, Fruitful w source) ∧
    ((sources.foldl (consult search) s).1.creates = false →
      s.1.creates = false ∧
      beyond path s.1.cut ⊆ beyond path (sources.foldl (consult search) s).1.cut ∧
      ∀ source ∈ sources,
        Barren w (beyond path (sources.foldl (consult search) s).1.cut) source) := by
  induction sources generalizing s with
  | nil => exact ⟨hs, .inl, fun h => ⟨h, subset_rfl, fun _ hm => by cases hm⟩⟩
  | cons source rest ih =>
    have ih := @ih fun next hm => hsearch next (List.mem_cons_of_mem _ hm)
    rw [List.foldl_cons]
    cases hc : s.1.creates with
    | true =>
      have hstep : consult search s source = s := by simp only [consult, hc, if_true]
      rw [hstep]
      obtain ⟨hsound, -, hno⟩ := ih hs
      refine ⟨hsound, fun _ => .inl rfl, fun h => ?_⟩
      rw [(hno h).1] at hc
      cases hc
    | false =>
      cases source with
      | factory =>
        have hstep : consult search s .factory = ({ creates := true }, s.2) := by
          simp [consult, hc]
        rw [hstep]
        obtain ⟨hsound, -, hno⟩ := ih (s := ({ creates := true }, s.2)) hs
        refine ⟨hsound, fun _ => .inr ⟨.factory, List.mem_cons_self, trivial⟩, fun h => ?_⟩
        cases (hno h).1
      | helper next =>
        obtain ⟨hsound', hholds⟩ := hsearch next List.mem_cons_self s.2 hs
        have hstep : consult search s (.helper next) =
            (⟨(search next s.2).1.creates, shallower s.1.cut (search next s.2).1.cut⟩,
              (search next s.2).2) := by
          simp [consult, hc]
        obtain ⟨hsound, hyes, hno⟩ := ih (s := consult search s (.helper next)) (hstep ▸ hsound')
        rw [hstep] at hsound hyes hno ⊢
        refine ⟨hsound, fun h => .inr ?_, fun h => ?_⟩
        · rcases hyes h with hn | ⟨source, hm, hf⟩
          · exact ⟨.helper next, List.mem_cons_self, hholds.yes hn⟩
          · exact ⟨source, List.mem_cons_of_mem _ hm, hf⟩
        · obtain ⟨hn, hsub, hb⟩ := hno h
          refine ⟨rfl, (beyond_shallower_left path _ _).trans hsub, fun source hm => ?_⟩
          rcases List.mem_cons.1 hm with rfl | hm
          · have hbarren : Barren w (beyond path (search next s.2).1.cut) (.helper next) :=
              hholds.no hn
            exact hbarren.mono ((beyond_shallower_right path _ _).trans hsub)
          · exact hb source hm

/-- A verdict on the sources of a method, turned into one on the method itself. -/
theorem conclude_holds {helper : SymbolId} {path : List SymbolId} {v : Verdict} (hf : Sound w f)
    (hyes : v.creates = true → w.ReachesFactory helper)
    (hno : v.creates = false →
      ¬ w.ReachesOutside (beyond path (v.cut.filter (· < path.length))) helper) :
    Sound w (f.conclude w helper path.length v).2 ∧
      (f.conclude w helper path.length v).1.Holds w path helper := by
  constructor
  · -- a "no" is written down only where no cut is left, and then it speaks of all ways
    refine Sound.note ?_ _
    split
    · rename_i hsettled
      intro method known hk
      rw [Table.get?_insert] at hk
      split at hk
      · rename_i heq
        cases eq_of_beq heq
        cases hk
        refine ⟨hyes, fun hr => ?_⟩
        cases hc : v.creates with
        | true => rfl
        | false =>
          rw [hc, Bool.false_or, Option.isNone_iff_eq_none] at hsettled
          rw [hsettled] at hno
          exact absurd (Watch.reachesOutside_empty_iff.2 hr) (hno hc)
      · exact hf method known hk
    · exact hf
  · cases hc : v.creates with
    | true =>
      simp only [conclude, hc, if_true]
      exact ⟨fun _ => hyes hc, fun h => (by cases h)⟩
    | false =>
      simp only [conclude, hc, Bool.false_eq_true, if_false]
      exact ⟨fun h => (by cases h), fun _ => hno hc⟩

/-- A search keeps the invariant, and its verdict holds below the path. -/
theorem classify_holds (helper : SymbolId) (path : List SymbolId) (hf : Sound w f) :
    Sound w (f.classify w helper path).2 ∧ (f.classify w helper path).1.Holds w path helper := by
  induction helper, path, f using classify_induction w with
  | known helper path f known hk =>
    rw [classify_known hk]
    have hknown := hf helper known hk
    refine ⟨hf, hknown.1, fun hc hr => ?_⟩
    have := hknown.2 (Watch.reachesOutside_empty_iff.1 (hr.mono (Set.empty_subset _)))
    rw [this] at hc
    cases hc
  | cut helper path f depth hk hd =>
    rw [classify_cut hk hd]
    obtain ⟨hlt, hget, -⟩ := List.idxOf?_eq_some_iff.1 hd
    refine ⟨hf, fun hc => (by cases hc), fun _ => Watch.not_reachesOutside_of_mem ?_⟩
    exact List.mem_iff_getElem.2 ⟨0, by rw [List.length_drop]; omega, by simpa using hget⟩
  | search helper path f hk hp hsearch =>
    obtain ⟨hsound, hyes, hno⟩ := foldl_consult hsearch (s := ({ creates := false }, f)) hf
    rw [classify_search hk hp]
    refine conclude_holds hsound (fun hc => ?_) (fun hc hr => ?_)
    · rcases hyes hc with hfalse | ⟨source, hs, hfruit⟩
      · cases hfalse
      cases source with
      | factory => exact ⟨helper, .refl, Watch.sources_factory_iff.1 hs⟩
      | helper next =>
        obtain ⟨last, hway, hlast⟩ := hfruit
        exact ⟨last, .head (Watch.leadsTo_of_mem_sources hs) hway, hlast⟩
    · obtain ⟨-, -, hbarren⟩ := hno hc
      have hdirect : ¬ w.CreatesDirectly helper :=
        fun hd => hbarren .factory (Watch.sources_factory_iff.2 hd)
      rcases Watch.reachesOutside_cases hr with hd | ⟨next, hl, hout⟩
      · exact hdirect hd
      rcases hl.mem_sources with hs | hd
      · exact hbarren _ hs (hout.mono (beyond_concat path helper _))
      · exact hdirect hd

/-! ## Questions to a finder -/

theorem Sound.helperCreates (hf : Sound w f) (helper : SymbolId) :
    Sound w (f.helperCreates w helper).2 :=
  (classify_holds helper [] hf).1

/-- At the root of a search no cut is left, so the answer is reachability. -/
theorem helperCreates_iff (hf : Sound w f) (helper : SymbolId) :
    (f.helperCreates w helper).1 = true ↔ w.ReachesFactory helper := by
  obtain ⟨-, hv⟩ := classify_holds helper [] hf
  refine ⟨hv.yes, fun hr => ?_⟩
  by_contra hc
  refine hv.no (Bool.not_eq_true _ ▸ hc) ((Watch.reachesOutside_empty_iff.2 hr).mono ?_)
  cases (f.classify w helper []).1.cut with
  | none => exact subset_rfl
  | some depth => exact fun m hm => absurd (List.mem_of_mem_drop hm) List.not_mem_nil

theorem Sound.creation? (hf : Sound w f) (value : Expr) : Sound w (f.creation? w value).2 := by
  unfold Finder.creation?
  split
  · exact hf
  · exact hf
  · exact hf.helperCreates _

theorem creation?_of_helper {value : Expr} {method : SymbolId}
    (hs : w.source? value = some (.helper method)) :
    (f.creation? w value).1 =
      if (f.helperCreates w method).1 then some (.helper method) else none := by
  unfold Finder.creation?
  rw [hs]

theorem creation?_eq_some_iff (hf : Sound w f) {value : Expr} {creation : Creation} :
    (f.creation? w value).1 = some creation ↔ w.CreatesAs value creation := by
  cases hs : w.source? value with
  | none =>
    have hnone : (f.creation? w value).1 = none := by unfold Finder.creation?; rw [hs]
    cases creation with
    | factory => simp [hnone, Watch.CreatesAs, ← Watch.source?_eq_factory_iff, hs]
    | helper next =>
      simp [hnone, Watch.CreatesAs, ← and_assoc, ← Watch.source?_eq_helper_iff, hs]
  | some source =>
    cases source with
    | factory =>
      have hfac : (f.creation? w value).1 = some .factory := by unfold Finder.creation?; rw [hs]
      cases creation with
      | factory => simp [hfac, Watch.CreatesAs, ← Watch.source?_eq_factory_iff, hs]
      | helper next =>
        simp [hfac, Watch.CreatesAs, ← and_assoc, ← Watch.source?_eq_helper_iff, hs]
    | helper method =>
      rw [creation?_of_helper hs]
      cases creation with
      | factory => simp [Watch.CreatesAs, ← Watch.source?_eq_factory_iff, hs]
      | helper next =>
        simp only [Watch.CreatesAs, ← and_assoc, ← Watch.source?_eq_helper_iff, hs,
          Option.ite_none_right_eq_some, helperCreates_iff hf, Option.some.injEq,
          Creation.helper.injEq]
        constructor
        · rintro ⟨hr, rfl⟩
          exact ⟨rfl, hr⟩
        · rintro ⟨rfl, hr⟩
          exact ⟨hr, rfl⟩

end Finder

end HandleLint
