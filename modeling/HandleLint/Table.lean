/-!
# Tables

A table maps keys to values. Its entries are kept in increasing order of their keys, so that reading
a table out gives it sorted, and writing a key again replaces the value it had.

* `Table.get?`, `Table.insert`: reading and writing;
* `Table.insertIfNew`: writing that keeps the value of a key already there;
* `get?_insert`, `get?_insertIfNew`: what reading gives after writing;
* `mem_toList_iff`: the list of a table holds what reading it gives.
-/

namespace HandleLint

/-- Entries in increasing order of their keys, no key twice. -/
structure Table (κ α : Type) [Ord κ] where
  entries : List (κ × α)
  sorted : entries.Pairwise fun e f => compare e.1 f.1 = .lt
  deriving Repr

namespace Table

variable {κ α : Type} [Ord κ]

instance : EmptyCollection (Table κ α) := ⟨⟨[], .nil⟩⟩

instance : Inhabited (Table κ α) := ⟨{}⟩

/-! ## Reading -/

/-- The value written last under a key. -/
def get? [BEq κ] (t : Table κ α) (k : κ) : Option α :=
  t.entries.lookup k

def contains [BEq κ] (t : Table κ α) (k : κ) : Bool :=
  (t.get? k).isSome

def size (t : Table κ α) : Nat :=
  t.entries.length

/-- The entries, smallest key first. -/
def toList (t : Table κ α) : List (κ × α) :=
  t.entries

def keys (t : Table κ α) : List κ :=
  t.entries.map Prod.fst

@[simp] theorem get?_empty [BEq κ] (k : κ) : ({} : Table κ α).get? k = none := rfl

theorem pairwise_keys (t : Table κ α) : t.keys.Pairwise fun j k => compare j k = .lt :=
  List.pairwise_map.2 t.sorted

theorem mem_toList_iff [BEq κ] [LawfulBEq κ] [Std.LawfulEqOrd κ] (t : Table κ α) {k : κ} {v : α} :
    (k, v) ∈ t.toList ↔ t.get? k = some v := by
  obtain ⟨es, hsorted⟩ := t
  show (k, v) ∈ es ↔ es.lookup k = some v
  induction es with
  | nil => simp
  | cons e rest ih =>
    obtain ⟨hfirst, hrest⟩ := List.pairwise_cons.1 hsorted
    obtain ⟨i, w⟩ := e
    rw [List.mem_cons, ih hrest, List.lookup_cons, Prod.mk.injEq]
    by_cases hk : k = i
    · subst hk
      -- no later entry has the key of the first
      have hlater : rest.lookup k ≠ some v := by
        intro h
        have hlt := hfirst _ ((ih hrest).2 h)
        simp at hlt
      simp [hlater, eq_comm]
    · simp [hk, beq_false_of_ne hk]

/-! ## Writing -/

/-- The place of a key among entries in increasing order. -/
def place (k : κ) (v : α) : List (κ × α) → List (κ × α)
  | [] => [(k, v)]
  | e :: rest =>
    match compare k e.1 with
    | .lt => (k, v) :: e :: rest
    | .eq => (k, v) :: rest
    | .gt => e :: place k v rest

theorem mem_place {k : κ} {v : α} {es : List (κ × α)} {e : κ × α} (h : e ∈ place k v es) :
    e = (k, v) ∨ e ∈ es := by
  induction es with
  | nil => exact .inl (List.mem_singleton.1 h)
  | cons first rest ih =>
    unfold place at h
    split at h
    · exact List.mem_cons.1 h
    · exact (List.mem_cons.1 h).imp_right (List.mem_cons_of_mem _)
    · rcases List.mem_cons.1 h with rfl | h
      · exact .inr List.mem_cons_self
      · exact (ih h).imp_right (List.mem_cons_of_mem _)

variable [Std.TransOrd κ] [Std.LawfulEqOrd κ]

theorem sorted_place (k : κ) (v : α) {es : List (κ × α)}
    (h : es.Pairwise fun e f => compare e.1 f.1 = .lt) :
    (place k v es).Pairwise fun e f => compare e.1 f.1 = .lt := by
  induction es with
  | nil => exact List.pairwise_singleton _ _
  | cons e rest ih =>
    obtain ⟨hfirst, hrest⟩ := List.pairwise_cons.1 h
    unfold place
    split
    · rename_i hlt
      refine List.pairwise_cons.2 ⟨?_, h⟩
      exact List.forall_mem_cons.2 ⟨hlt, fun x hx => Std.TransCmp.lt_trans hlt (hfirst x hx)⟩
    · rename_i heq
      cases Std.LawfulEqOrd.eq_of_compare heq
      exact List.pairwise_cons.2 ⟨hfirst, hrest⟩
    · rename_i hgt
      refine List.pairwise_cons.2 ⟨fun x hx => ?_, ih hrest⟩
      rcases mem_place hx with rfl | hx
      · exact Std.OrientedCmp.lt_of_gt hgt
      · exact hfirst x hx

def insert (t : Table κ α) (k : κ) (v : α) : Table κ α :=
  ⟨place k v t.entries, sorted_place k v t.sorted⟩

theorem mem_keys_insert_iff (t : Table κ α) {k j : κ} {v : α} :
    j ∈ (t.insert k v).keys ↔ j = k ∨ j ∈ t.keys := by
  show j ∈ (place k v t.entries).map Prod.fst ↔ j = k ∨ j ∈ t.entries.map Prod.fst
  induction t.entries with
  | nil => simp [place]
  | cons e rest ih =>
    unfold place
    split
    · simp
    · rename_i heq
      simp [Std.LawfulEqOrd.eq_of_compare heq]
    · simp only [List.map_cons, List.mem_cons, ih]
      exact or_left_comm

def insertIfNew [BEq κ] (t : Table κ α) (k : κ) (v : α) : Table κ α :=
  if t.contains k then t else t.insert k v

/-! ## Reading after writing -/

variable [BEq κ] [LawfulBEq κ]

omit [Std.TransOrd κ] in
theorem lookup_place (k j : κ) (v : α) (es : List (κ × α)) :
    (place k v es).lookup j = if j == k then some v else es.lookup j := by
  induction es with
  | nil => by_cases h : j == k <;> simp [place, List.lookup_cons, h]
  | cons e rest ih =>
    obtain ⟨i, w⟩ := e
    unfold place
    split
    · by_cases h : j == k <;> simp [List.lookup_cons, h]
    · rename_i heq
      have hk : k = i := Std.LawfulEqOrd.eq_of_compare heq
      subst hk
      by_cases h : j == k <;> simp [List.lookup_cons, h]
    · rename_i heq
      have hne : (i == k) = false := by
        apply beq_false_of_ne
        intro h
        simp [h] at heq
      by_cases h : j == i
      · have hj : j = i := by simpa using h
        subst hj
        simp [hne]
      · simp [List.lookup_cons, h, ih]

@[simp] theorem get?_insert (t : Table κ α) (k j : κ) (v : α) :
    (t.insert k v).get? j = if j == k then some v else t.get? j :=
  lookup_place k j v t.entries

theorem get?_insertIfNew (t : Table κ α) (k j : κ) (v : α) :
    (t.insertIfNew k v).get? j = if j == k then some ((t.get? k).getD v) else t.get? j := by
  unfold insertIfNew contains
  cases hk : t.get? k with
  | none => simp
  | some w =>
    by_cases h : j == k
    · have hj : j = k := by simpa using h
      subst hj
      simp [hk]
    · simp [h]

end Table

end HandleLint
