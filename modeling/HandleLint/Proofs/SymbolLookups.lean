import HandleLint.Proofs.Noninterference
import HandleLint.Proofs.RelabelledWatches

/-!
# Symbols are never looked up in vain

Where the name of a symbol is wanted, or the symbol of a candidate, the search of handles falls back
on a question mark or passes the candidate over if there is no such symbol. It never comes to that,
because the tables of a unit are coherent: every candidate has its outcome, and symbols that a table
might hold besides its own would change nothing.

* `Model.withMore`: further symbols after those of a table;
* `Finder.map_outcomes`: the outcomes of a method are those of its candidates;
* `resolve_refers_to_symbols`: the tables of a unit, and what follows for the search.
-/

namespace HandleLint

/-- The model with further symbols after its own. -/
def Model.withMore (m : Model) (more : List Symbol) : Model :=
  { m with symbols := ⟨m.symbols.symbols ++ more.toArray⟩ }

theorem Table.mapValues_self {κ α : Type} [Ord κ] {g : α → α} (h : ∀ a, g a = a) (t : Table κ α) :
    t.mapValues g = t := by
  have hentry : ∀ entry : κ × α, (entry.1, g entry.2) = entry := fun entry => by rw [h]
  simp only [mapValues, List.map_id'' hentry]

theorem Model.relabels_withMore (m : Model) (more : List Symbol) :
    m.Relabels {} (m.withMore more) where
  symbols := by
    intro id s hs
    have hlt : id < m.symbols.symbols.size := (Array.getElem?_eq_some_iff.1 hs).1
    rw [Symbol.renumber_self fun _ => rfl, ← hs]
    exact Array.getElem?_append_left hlt
  references := fun _ => rfl
  declarations := fun _ => rfl
  calls := fun _ => rfl
  methods := (Table.mapValues_self MethodDecl.relabel_self m.methods).symm

namespace Finder

variable {w : Watch}

/-- No candidate is passed over. -/
theorem map_outcomes (h : w.model.Coherent) (g : Finder) (method : MethodDecl) :
    (g.outcomes w method).1.map (fun o => (o.symbol.id, o.creation)) =
      (g.find w method).1.entries := by
  have hsymbols := symbols_find (w := w) g method
  have hentry : ∀ (rs : Releases) entry, entry ∈ (g.find w method).1.entries →
      (rs.outcome? w entry).map (fun o => (o.symbol.id, o.creation)) = some entry := by
    rintro rs ⟨id, creation⟩ he
    obtain ⟨s, hs⟩ := hsymbols _ he
    have hid : s.id = id := h.ids hs
    rw [Releases.outcome?, hs]
    exact congrArg (fun id => some (id, creation)) hid
  unfold outcomes
  generalize g.find w method = found at hentry
  obtain ⟨⟨entries⟩, g'⟩ := found
  cases entries with
  | nil => rfl
  | cons first rest =>
    simp only [CandidateSet.isEmpty, List.isEmpty_cons, Bool.false_eq_true, if_false]
    rw [List.map_filterMap, List.filterMap_congr fun entry he => hentry _ entry he,
      List.filterMap_some]

end Finder

/-- The tables of a unit refer to nothing that is not there, and to symbols of the right kinds; with
distinct numbers for its nodes they are also about what stands at the nodes. So the search of
handles finds a symbol wherever it looks for one: every candidate of a method has its outcome, and
whatever symbols might come after those of the unit, it has the same results and takes the same
notes, with the same names. -/
theorem resolve_refers_to_symbols (order : ClassOrder) (u : CompilationUnit)
    (signatures : Signatures) :
    let m := (resolve order u signatures).model
    m.Coherent ∧ (u.nodeIds.Nodup → m.Exact u) ∧
    ∀ (resource : ResourceConfig) (f : Finder) (rules : List Rule) (method : MethodDecl),
      let w : Watch := { model := m, resource }
      (f.outcomes w method).1.map (fun o => (o.symbol.id, o.creation)) =
        (f.find w method).1.entries ∧
      ∀ more, let w' : Watch := { model := m.withMore more, resource }
        f.find w' method = f.find w method ∧
        f.checkMethod w' rules method = f.checkMethod w rules method := by
  intro m
  have hcoherent := coherent_resolve order u signatures
  refine ⟨hcoherent, exact_resolve, fun resource f rules method => ?_⟩
  intro w
  refine ⟨Finder.map_outcomes hcoherent f method, fun more => ?_⟩
  intro w'
  -- The larger table holds what the table of the unit holds, with every label kept.
  have hrelabels : w.Relabels {} w' := ⟨rfl, m.relabels_withMore more, hcoherent⟩
  constructor
  · have hfind := hrelabels.find (g := f) method
    rwa [method.relabel_self] at hfind
  · have hrules : ∀ rule ∈ rules, rule.Ignores fun i => i := by
      intro rule _ o
      rw [Outcome.renumber, o.symbol.renumber_self fun _ => rfl]
    have hcheck := hrelabels.checkMethod (g := f) hrules method
    have hfindings : ∀ xs : List Finding, xs.map (Finding.renumber fun i => i) = xs :=
      List.map_id'' fun _ => rfl
    rwa [method.relabel_self, hfindings] at hcheck

/-- In a unit of lenders, the call of the borrower is tied to a method of the name it has, and the
handle that it gets is followed up. -/
theorem resolve_refers_to_symbols_lenderUnit :
    let w := lenderWatch .increasing lenderUnit
    lenderUnit.nodeIds.Nodup ∧ w.model.Exact lenderUnit ∧
    (w.model.callTarget? borrowing.id).map (·.callee) = some (some 3) ∧
    (∃ s, w.model.symbol? 3 = some s ∧ s.name = "open") ∧
    (Finder.outcomes w borrower {}).1.map (fun o => (o.symbol.id, o.creation)) =
      [(8, .helper 3)] := by
  intro w
  have distinct : lenderUnit.nodeIds.Nodup := by decide
  obtain ⟨-, hexact, hsearch⟩ :=
    resolve_refers_to_symbols .increasing lenderUnit (.ofList [⟨"p.Pool", "get", "p.Handle"⟩])
  obtain ⟨houtcomes, -⟩ := hsearch w.resource {} Rule.all borrower
  have hcallee : (w.model.callTarget? borrowing.id).map (·.callee) = some (some 3) := by
    decide +kernel
  obtain ⟨target, htarget, hc⟩ := Option.map_eq_some_iff.1 hcallee
  have hborrower : borrower ∈ lenderUnit.allMethods := .tail _ (.tail _ (.tail _ (.head _)))
  have hmem : borrowing ∈ lenderUnit.expressions := by
    obtain ⟨c, hc, hm⟩ := List.mem_flatMap.1 hborrower
    refine List.mem_flatMap.2 ⟨c, hc, List.mem_append_right _ ?_⟩
    exact List.mem_flatMap.2 ⟨borrower, hm, .head _⟩
  refine ⟨distinct, hexact distinct, hcallee, (hexact distinct).calls hmem htarget hc, ?_⟩
  exact houtcomes.trans (congrArg CandidateSet.entries candidates_borrower)

end HandleLint
