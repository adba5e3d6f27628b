import HandleLint.Proofs.Anchors
import HandleLint.Proofs.RuleSelection
import Mathlib.Data.List.Flatten

/-!
# More names for releases

A configuration names the calls that release a handle. With more names, more calls count as releases
and none stops to count, whichever way a name counted before: so more handles are found to be
released in place, and fewer to leak.

* `ResourceConfig.Extends`: more names for the same handles;
* `Watch.candidates_eq_of_sameHandles`: the candidates are the same;
* `Watch.ReleasedIn.extends`, `Watch.HandedOffIn.extends`: what is released stays released;
* `Watch.findingsOf_findingsIn_sublist`: a rule that fires more often finds more;
* `flagged_of_extends`: the findings of methods and of a unit.
-/

namespace HandleLint

namespace ResourceConfig

/-- The same handles are watched. -/
structure SameHandles (c c' : ResourceConfig) : Prop where
  handleType : c'.handleType = c.handleType
  factoryType : c'.factoryType = c.factoryType

theorem SameHandles.symm {c c' : ResourceConfig} (h : c.SameHandles c') : c'.SameHandles c :=
  ⟨h.handleType.symm, h.factoryType.symm⟩

/-- The same handles are watched, and all that releases them in the one configuration does so in the
other. -/
structure Extends (c c' : ResourceConfig) : Prop extends SameHandles c c' where
  releaseMethods : c.releaseMethods ⊆ c'.releaseMethods
  releaseHelpers : c.releaseHelpers ⊆ c'.releaseHelpers

end ResourceConfig

namespace Watch

variable {model : Model} {c c' : ResourceConfig}

/-- Where handles come from has nothing to do with how they are released. -/
theorem candidates_eq_of_sameHandles (h : c.SameHandles c') (m : MethodDecl) :
    candidates ⟨model, c'⟩ m = candidates ⟨model, c⟩ m := by
  obtain ⟨handle, factory, methods, helpers⟩ := c
  obtain ⟨handle', factory', methods', helpers'⟩ := c'
  obtain rfl : handle' = handle := h.handleType
  obtain rfl : factory' = factory := h.factoryType
  refine (tracks_candidates _ m).unique ((tracks_candidates _ m).congr fun id c i => ?_)
  exact ⟨fun h => ⟨h.opens, h.kept, h.first⟩, fun h => ⟨h.opens, h.kept, h.first⟩⟩

theorem ReleasedIn.extends {body : List Stmt} {id : SymbolId}
    (h : c.releaseMethods ⊆ c'.releaseMethods) (hr : ReleasedIn ⟨model, c⟩ body id) :
    ReleasedIn ⟨model, c'⟩ body id := by
  obtain ⟨site, receiver, name, ho, hn, hid⟩ := hr
  exact ⟨site, receiver, name, ho, h hn, hid⟩

theorem HandedOffIn.extends {body : List Stmt} {id : SymbolId} (h : c.Extends c')
    (hh : HandedOffIn ⟨model, c⟩ body id) : HandedOffIn ⟨model, c'⟩ body id := by
  obtain ⟨site, receiver, name, args, ho, hn, ha⟩ := hh
  exact ⟨site, receiver, name, args, ho, hn.imp (h.releaseMethods ·) (h.releaseHelpers ·), ha⟩

/-- What becomes of a candidate of a method, where it has a symbol. -/
def outcomeOn (w : Watch) (m : MethodDecl) (candidate : SymbolId × Creation) (symbol : Symbol) :
    Outcome where
  symbol
  creation := candidate.2
  release := (Releases.ofBody w m.name (m.body.getD [])).calls.get? candidate.1
  handedOff := (Releases.ofBody w m.name (m.body.getD [])).handedOff.get? candidate.1

section Fires

variable {w : Watch} {m : MethodDecl} {candidate : SymbolId × Creation} {symbol : Symbol}

theorem fires_tryWithResources_iff :
    Rule.tryWithResources.fires (w.outcomeOn m candidate symbol) = true ↔
      w.ReleasedIn (m.body.getD []) candidate.1 :=
  Releases.calls_ofBody_iff w m.name (m.body.getD []) candidate.1

theorem fires_unclosed_iff :
    Rule.unclosed.fires (w.outcomeOn m candidate symbol) = true ↔
      ¬ w.ReleasedIn (m.body.getD []) candidate.1 ∧
      ¬ w.HandedOffIn (m.body.getD []) candidate.1 := by
  rw [← Releases.calls_ofBody_iff w m.name, ← Releases.handedOff_ofBody_iff w m.name]
  simp only [Rule.unclosed, Rule.neverClosed, outcomeOn, Bool.and_eq_true,
    Option.isNone_iff_eq_none, Option.not_isSome_iff_eq_none]

end Fires

end Watch

/-! ## Findings of each rule -/

/-- Both rules, with the severities that a configuration gives them. -/
def Rule.adjusted (config : LintConfig) : List Rule :=
  all.map config.adjust

theorem Rule.filter_adjusted (config : LintConfig) {rule : Rule} (h : rule ∈ all) :
    (adjusted config).filter (fun r => r.info.key = rule.info.key) = [config.adjust rule] := by
  rw [adjusted, List.filter_map]
  simp only [Function.comp_def, LintConfig.key_adjust]
  simp only [all, List.mem_cons, List.not_mem_nil, or_false] at h ⊢
  rcases h with rfl | rfl <;> rfl

theorem LintConfig.fires_adjust (config : LintConfig) (rule : Rule) :
    (config.adjust rule).fires = rule.fires := by
  unfold adjust
  split <;> rfl

/-- The findings of a rule, by its key. -/
def findingsOf (rule : Rule) (findings : List Finding) : List Finding :=
  findings.filter fun x => x.rule = rule.info.key

section OneRule

variable {model : Model} {c c' : ResourceConfig} {m : MethodDecl} {rule : Rule}
  (config : LintConfig)

/-- What one of the two rules finds on a candidate. -/
theorem Watch.findingsOf_findingsOn {w : Watch} {candidate : SymbolId × Creation} {symbol : Symbol}
    (hr : rule ∈ Rule.all) (hs : w.model.symbol? candidate.1 = some symbol) :
    findingsOf rule (w.findingsOn (Rule.adjusted config) m candidate) =
      if rule.fires (w.outcomeOn m candidate symbol) then
        [.ofRule w.resource.handleName symbol (config.adjust rule).info]
      else [] := by
  have hone := w.findingsOn_filter (Rule.adjusted config) (· = rule.info.key) m candidate
  rw [Rule.filter_adjusted config hr, findingsOn_of_symbol? hs] at hone
  rw [findingsOf, ← hone, Finder.judge, List.filter_cons, List.filter_nil, config.fires_adjust,
    apply_ite (List.map _)]
  rfl

/-- A rule that fires on a candidate with other names too finds the same with them. -/
theorem Watch.findingsOf_findingsOn_sublist {candidate : SymbolId × Creation}
    (h : c.SameHandles c') (hr : rule ∈ Rule.all)
    (hfires : ∀ symbol, rule.fires (outcomeOn ⟨model, c⟩ m candidate symbol) = true →
      rule.fires (outcomeOn ⟨model, c'⟩ m candidate symbol) = true) :
    (findingsOf rule (findingsOn ⟨model, c⟩ (Rule.adjusted config) m candidate)).Sublist
      (findingsOf rule (findingsOn ⟨model, c'⟩ (Rule.adjusted config) m candidate)) := by
  cases hs : model.symbol? candidate.1 with
  | none => rw [findingsOn_of_none hs, findingsOn_of_none hs]
  | some symbol =>
    rw [findingsOf_findingsOn config hr hs, findingsOf_findingsOn config hr hs]
    split
    · rename_i hfire
      rw [if_pos (hfires symbol hfire)]
      simp only [ResourceConfig.handleName, h.handleType, List.Sublist.refl]
    · exact List.nil_sublist _

/-- What rules find on the candidates of methods. -/
def Watch.findingsIn (w : Watch) (rules : List Rule) (ms : List MethodDecl) : List Finding :=
  ms.flatMap fun m => (w.candidates m).entries.flatMap (w.findingsOn rules m)

theorem Watch.findingsOf_findingsIn_sublist (h : c.SameHandles c') (hr : rule ∈ Rule.all)
    (hfires : ∀ {m candidate symbol}, rule.fires (outcomeOn ⟨model, c⟩ m candidate symbol) = true →
      rule.fires (outcomeOn ⟨model, c'⟩ m candidate symbol) = true) (ms : List MethodDecl) :
    (findingsOf rule (findingsIn ⟨model, c⟩ (Rule.adjusted config) ms)).Sublist
      (findingsOf rule (findingsIn ⟨model, c'⟩ (Rule.adjusted config) ms)) := by
  unfold findingsOf findingsIn
  simp only [List.filter_flatMap, candidates_eq_of_sameHandles h]
  refine List.Sublist.flatMap_right _ fun m _ => List.Sublist.flatMap_right _ fun candidate _ => ?_
  exact findingsOf_findingsOn_sublist config h hr fun _ => hfires

end OneRule

/-! ## Findings with more names -/

namespace Watch

variable {c c' : ResourceConfig} (model : Model) (config : LintConfig) (ms : List MethodDecl)

theorem closed_sublist (h : c.SameHandles c') (hmethods : c.releaseMethods ⊆ c'.releaseMethods) :
    (findingsOf .tryWithResources (findingsIn ⟨model, c⟩ (Rule.adjusted config) ms)).Sublist
      (findingsOf .tryWithResources (findingsIn ⟨model, c'⟩ (Rule.adjusted config) ms)) := by
  refine findingsOf_findingsIn_sublist config h List.mem_cons_self (fun hfires => ?_) ms
  rw [fires_tryWithResources_iff] at hfires ⊢
  exact hfires.extends hmethods

theorem leaks_sublist (h : c.Extends c') :
    (findingsOf .unclosed (findingsIn ⟨model, c'⟩ (Rule.adjusted config) ms)).Sublist
      (findingsOf .unclosed (findingsIn ⟨model, c⟩ (Rule.adjusted config) ms)) := by
  have hrule : Rule.unclosed ∈ Rule.all := List.mem_cons_of_mem _ List.mem_cons_self
  refine findingsOf_findingsIn_sublist config h.symm hrule (fun hfires => ?_) ms
  rw [fires_unclosed_iff] at hfires ⊢
  obtain ⟨hreleased, hhanded⟩ := hfires
  exact ⟨fun hr => hreleased (hr.extends h.releaseMethods), fun hh => hhanded (hh.extends h)⟩

/-- What the two rules find on the candidates of methods. -/
theorem findingsIn_of_extends (h : c.Extends c') :
    let found := findingsIn ⟨model, c⟩ (Rule.adjusted config) ms
    let found' := findingsIn ⟨model, c'⟩ (Rule.adjusted config) ms
    (findingsOf .tryWithResources found).Sublist (findingsOf .tryWithResources found') ∧
    (findingsOf .unclosed found').Sublist (findingsOf .unclosed found) ∧
    (c'.releaseMethods ⊆ c.releaseMethods →
      findingsOf .tryWithResources found = findingsOf .tryWithResources found') := by
  have hclosed := closed_sublist model config ms h.toSameHandles h.releaseMethods
  refine ⟨hclosed, leaks_sublist model config ms h, fun hmethods => ?_⟩
  exact hclosed.antisymm (closed_sublist model config ms h.symm hmethods)

end Watch

theorem findingsOf_checkUnit (rule : Rule) (w : Watch) (rules : List Rule) (u : CompilationUnit) :
    findingsOf rule (checkUnit w rules u).1 =
      (findingsOf rule (w.findingsIn rules (u.allMethods.filter (·.body.isSome)))).mergeSort
        Finding.le := by
  have hfound := Finder.checkMethods_eq_flatMap (Finder.sound_fresh w) rules
    (u.allMethods.filter (·.body.isSome))
  rw [findingsOf, findingsOf, Watch.findingsIn, ← hfound,
    ← filter_mergeSort Finding.le_trans Finding.le_total]
  rfl

/-- More names for releases, with both rules running at whatever severities. A method and a unit are
told of all handles released in place that they were told of before, and of no leak that they were
not told of before. Where no release method is new, they are told of the same handles released in
place. -/
theorem flagged_of_extends (order : ClassOrder) (u : CompilationUnit) (signatures : Signatures)
    (config : LintConfig) (c c' : ResourceConfig) (h : c.Extends c') :
    let w : Watch := { model := (resolve order u signatures).model, resource := c }
    let w' : Watch := { model := (resolve order u signatures).model, resource := c' }
    let rules := Rule.adjusted config
    let closed := findingsOf Rule.tryWithResources
    let leaks := findingsOf Rule.unclosed
    (∀ m f f', Finder.Reached w f → Finder.Reached w' f' →
      let found := (f.checkMethod w rules m).1
      let found' := (f'.checkMethod w' rules m).1
      (closed found).Sublist (closed found') ∧ (leaks found').Sublist (leaks found) ∧
        (c'.releaseMethods ⊆ c.releaseMethods → closed found = closed found')) ∧
    let found := (checkUnit w rules u).1
    let found' := (checkUnit w' rules u).1
    (closed found).Subperm (closed found') ∧ (leaks found').Subperm (leaks found) ∧
      (c'.releaseMethods ⊆ c.releaseMethods → closed found = closed found') := by
  intro w w' rules closed leaks
  have hsort : ∀ {xs ys : List Finding}, xs.Sublist ys →
      (xs.mergeSort Finding.le).Subperm (ys.mergeSort Finding.le) := fun hsub =>
    (List.mergeSort_perm _ _).subperm.trans
      (hsub.subperm.trans (List.mergeSort_perm _ _).symm.subperm)
  constructor
  · intro m f f' hf hf' found found'
    have hfound := Watch.findingsIn_of_extends w.model config [m] h
    simp only [Watch.findingsIn, List.flatMap_singleton] at hfound
    have hm := (Finder.checkMethod_eq hf.sound rules m).2
    have hm' := (Finder.checkMethod_eq hf'.sound rules m).2
    rw [← hm, ← hm'] at hfound
    exact hfound
  · intro found found'
    obtain ⟨hclosed, hleaks, hsame⟩ :=
      Watch.findingsIn_of_extends w.model config (u.allMethods.filter (·.body.isSome)) h
    simp only [closed, leaks, found, found', findingsOf_checkUnit]
    refine ⟨hsort hclosed, hsort hleaks, fun hmethods => ?_⟩
    exact congrArg (List.mergeSort · Finding.le) (hsame hmethods)

/-- A method that calls `free` on the one handle and passes the other to it. -/
def freeing : MethodDecl where
  site := ⟨1, {}⟩
  name := "m"
  params := []
  returnType := none
  body := some [
    .localVar ⟨2, {}⟩ ⟨⟨3, {}⟩, "a", "Handle", some (poolCall 4)⟩,
    .localVar ⟨6, {}⟩ ⟨⟨7, {}⟩, "b", "Handle", some (poolCall 8)⟩,
    .exprStmt ⟨10, {}⟩ (.call ⟨11, {}⟩ (some (.ident ⟨12, {}⟩ "a")) "free" []),
    .exprStmt ⟨13, {}⟩ (.call ⟨14, {}⟩ none "free" [.ident ⟨15, {}⟩ "b"])]

def freeingUnit : CompilationUnit where
  package := some "p"
  imports := ["p.Pool", "p.Handle"]
  classes := [{ site := ⟨0, {}⟩, name := "A", fields := [], methods := [freeing], nested := [] }]

/-- With `free` a release method too, and not only a release helper, the one handle no longer leaks
but is released in place, and nothing changes for the other. -/
theorem flagged_of_extends_freeingUnit :
    let c := { poolResource with releaseHelpers := ["free"] }
    let c' := { poolResource with releaseMethods := ["close", "free"], releaseHelpers := ["free"] }
    let model := (resolve .increasing freeingUnit poolSignatures).model
    let w : Watch := { model, resource := c }
    let w' : Watch := { model, resource := c' }
    let found := (Finder.checkMethod w (Rule.adjusted {}) freeing {}).1
    let found' := (Finder.checkMethod w' (Rule.adjusted {}) freeing {}).1
    c.Extends c' ∧ (found.map fun x => (x.var, x.rule)) = [("a", "resource/unclosed")] ∧
    (found'.map fun x => (x.var, x.rule)) = [("a", "resource/try-with-resources")] ∧
    (findingsOf .tryWithResources found).Sublist (findingsOf .tryWithResources found') ∧
    (findingsOf .unclosed found').Sublist (findingsOf .unclosed found) := by
  intro c c' w w' found found'
  have hextends : c.Extends c' := ⟨⟨rfl, rfl⟩, by decide, by decide⟩
  obtain ⟨hmethod, -⟩ := flagged_of_extends .increasing freeingUnit poolSignatures {} c c' hextends
  obtain ⟨hclosed, hleaks, -⟩ := hmethod freeing {} {} .fresh .fresh
  exact ⟨hextends, by decide +kernel, by decide +kernel, hclosed, hleaks⟩

end HandleLint
