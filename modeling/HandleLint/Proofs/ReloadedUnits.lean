import Mathlib.Data.List.Forall2
import HandleLint.Proofs.UnitFiles

/-!
# Saving loaded units

A unit file may leave out spans and lists, write records as arrays and hold fields that nobody
reads; a saved unit writes every span and every list. What is saved may so nest deeper than what was
loaded, but only by one level: a node on the last level of a file has no room for a span.

* `Json.Rewrites`: how deep a value that was read is written again;
* `Rewrites.record`, `Tight.list`: from the parts of a value to the whole;
* `Expr.tight`, `Stmt.tight`, `ClassDecl.tight`: the parts of a tree;
* `load?_save_of_load?`: a loaded unit is read back from what is saved of it unless that takes one
  level too many.
-/

namespace HandleLint

namespace Json

/-- What is read from `j` with some room is written as `saved`: at most one level deeper than was
read, and within the room if nothing changes. -/
structure Rewrites (room : Nat) (j saved : Json) : Prop where
  nesting_le : saved.nesting ≤ min room j.nesting + 1
  nesting_le_of_eq : j = saved → saved.nesting ≤ room

/-- A field that is left out is written with one level at most. -/
def Slot.Rewrites (room : Nat) : Slot → Json → Prop
  | .given v, saved => Json.Rewrites room v saved
  | .absent, saved | .cut, saved => saved.nesting ≤ 1

theorem mapM_eq_some_iff {α β : Type} {f : α → Option β} {as : List α} {bs : List β} :
    as.mapM f = some bs ↔ List.Forall₂ (fun a b => f a = some b) as bs := by
  induction as generalizing bs with
  | nil => simp [eq_comm]
  | cons a as ih =>
    rw [List.forall₂_cons_left_iff, List.mapM_cons]
    simp [Option.bind_eq_some_iff, ih, eq_comm (a := bs)]

theorem exists_of_forall₂ {α β : Type} {R : α → β → Prop} {as : List α} {bs : List β}
    (h : List.Forall₂ R as bs) {b : β} (hb : b ∈ bs) : ∃ a ∈ as, R a b := by
  induction h with
  | nil => exact absurd hb List.not_mem_nil
  | cons ha _ ih =>
    rcases List.mem_cons.1 hb with rfl | hb
    · exact ⟨_, List.mem_cons_self, ha⟩
    · obtain ⟨a, hmem, hab⟩ := ih hb
      exact ⟨a, List.mem_cons_of_mem _ hmem, hab⟩

/-! ## Records -/

theorem mem_of_fieldSlot? {name : String} {fields : List (Option String × Json)} {v : Json}
    (h : fieldSlot? name fields = some (.given v)) : ∃ f ∈ fields, f.2 = v := by
  unfold fieldSlot? at h
  split at h
  case h_2 key value hfilter =>
    have hmem : (key, value) ∈ fields :=
      (List.mem_filter.1 (hfilter ▸ List.mem_singleton_self _)).1
    cases h
    exact ⟨_, hmem, rfl⟩
  all_goals cases h

theorem mem_of_positionSlots? {names : List String} {items : List Json} {slots : List Slot}
    (h : positionSlots? names items = some slots) {v : Json} (hv : Slot.given v ∈ slots) :
    v ∈ items := by
  fun_induction positionSlots? names items generalizing slots with
  | case1 =>
    cases h
    exact absurd hv List.not_mem_nil
  | case2 => cases h
  | case3 name names ih =>
    obtain ⟨rest, hrest, rfl⟩ := Option.map_eq_some_iff.1 h
    exact ih hrest ((List.mem_cons.1 hv).resolve_left nofun)
  | case4 name names v' items ih =>
    obtain ⟨rest, hrest, rfl⟩ := Option.map_eq_some_iff.1 h
    rcases List.mem_cons.1 hv with heq | hv
    · cases heq
      exact List.mem_cons_self
    · exact List.mem_cons_of_mem _ (ih hrest hv)

/-- The fields of a record stand one level deeper than the record. -/
theorem nesting_lt_of_slots? {names : List String} {j : Json} {slots : List Slot}
    (h : slots? names j = some slots) {v : Json} (hv : Slot.given v ∈ slots) :
    v.nesting < j.nesting := by
  unfold slots? at h
  split at h
  case h_1 fields =>
    obtain ⟨hnames, hslots⟩ := Option.ite_none_right_eq_some.1 h
    obtain ⟨name, -, hname⟩ := exists_of_forall₂ (mapM_eq_some_iff.1 hslots) hv
    obtain ⟨f, hf, rfl⟩ := mem_of_fieldSlot? hname
    exact Nat.lt_succ_of_le (nestingFields_le_iff.1 (Nat.le_refl _) f hf)
  case h_2 items =>
    exact Nat.lt_succ_of_le (nestingItems_le_iff.1 (Nat.le_refl _) v (mem_of_positionSlots? h hv))
  case h_3 => cases h

theorem nesting_pos_of_slots? {names : List String} {j : Json} {slots : List Slot}
    (h : slots? names j = some slots) : 0 < j.nesting := by
  unfold slots? at h
  split at h
  · exact Nat.succ_pos _
  · exact Nat.succ_pos _
  · cases h

/-- A record of distinct fields has each of them once. -/
theorem fieldSlot?_record {fs : List (String × Json)} (hnames : (fs.map Prod.fst).Nodup)
    {f : String × Json} (hf : f ∈ fs) :
    fieldSlot? f.1 (fs.map fun (name, value) => (some name, value)) = some (.given f.2) := by
  have hfilter : (fs.map fun (name, value) => (some name, value)).filter (·.1 == some f.1) =
      [(some f.1, f.2)] := by
    induction fs with
    | nil => exact absurd hf List.not_mem_nil
    | cons g fs ih =>
      obtain ⟨hg, hnames⟩ := List.nodup_cons.1 hnames
      rcases List.mem_cons.1 hf with rfl | hf
      · have hrest : ∀ g ∈ fs, g.1 ≠ f.1 := fun g hg' heq => hg (heq ▸ List.mem_map_of_mem hg')
        rw [List.map_cons, List.filter_cons_of_pos (by simp), List.filter_eq_nil_iff.2]
        exact List.forall_mem_map.2 fun g hg' => by simpa using hrest g hg'
      · have hne : g.1 ≠ f.1 := fun heq => hg (heq ▸ List.mem_map_of_mem hf)
        rw [List.map_cons, List.filter_cons_of_neg (by simpa using hne), ih hnames hf]
  rw [fieldSlot?, hfilter]

theorem slots?_record {fs : List (String × Json)} (hnames : (fs.map Prod.fst).Nodup) :
    slots? (fs.map Prod.fst) (Json.record fs) = some (fs.map fun f => .given f.2) := by
  have htexts : (fs.map fun (name, value) => (some name, value)).all (·.1.isSome) = true := by
    simp
  show (if _ then _ else none) = _
  rw [if_pos htexts, List.mapM_map, mapM_eq_some_iff, List.forall₂_map_right_iff, List.forall₂_same]
  exact fun f hf => fieldSlot?_record hnames hf

/-- A record, from what its fields hold. -/
theorem Rewrites.record {n : Nat} {j : Json} {names : List String} {fs : List (String × Json)}
    {slots : List Slot} (hslots : slots? names j = some slots) (hfs : fs.map Prod.fst = names)
    (hnames : names.Nodup) (h : List.Forall₂ (Slot.Rewrites n) slots (fs.map Prod.snd)) :
    Rewrites (n + 1) j (Json.record fs) where
  nesting_le := by
    have hpos := nesting_pos_of_slots? hslots
    refine Nat.succ_le_succ (nestingFields_le_iff.2 (List.forall_mem_map.2 fun f hf => ?_))
    obtain ⟨slot, hslot, hf⟩ := exists_of_forall₂ h (List.mem_map_of_mem hf)
    cases slot with
    | given v =>
      have hv := nesting_lt_of_slots? hslots hslot
      have hle := hf.nesting_le
      show f.2.nesting ≤ _
      omega
    | absent | cut =>
      have hle : f.2.nesting ≤ 1 := hf
      show f.2.nesting ≤ _
      omega
  nesting_le_of_eq := by
    rintro rfl
    subst hfs
    rw [slots?_record hnames] at hslots
    cases hslots
    refine Nat.succ_le_succ (nestingFields_le_iff.2 (List.forall_mem_map.2 fun f hf => ?_))
    rw [List.forall₂_map_left_iff, List.forall₂_map_right_iff, List.forall₂_same] at h
    exact (h f hf).nesting_le_of_eq rfl

/-! ## Lists, leaves and fields -/

/-- With some room, whatever a decoder reads is written as `encode` has it. -/
structure Tight {α : Type} (room : Nat) (decode : Json → Option α) (encode : α → Json) : Prop where
  rewrites : ∀ {j a}, decode j = some a → Rewrites room j (encode a)

/-- The same of what is read from a field. -/
structure TightField {α : Type} (room : Nat) (read : Slot → Option α) (encode : α → Json) :
    Prop where
  rewrites : ∀ {slot a}, read slot = some a → slot.Rewrites room (encode a)

theorem Rewrites.flat {room : Nat} {j saved : Json} (h : saved.nesting = 0) :
    Rewrites room j saved := by
  constructor
  · omega
  · omega

/-- A form with content. -/
theorem Rewrites.variant {n : Nat} {kind : String} {content saved : Json}
    (h : Rewrites n content saved) :
    Rewrites (n + 1) (.object [(some kind, content)]) (Encode.variant kind saved) := by
  have hle := h.nesting_le
  constructor
  · simp only [Encode.variant, Json.record, List.map, nesting, nestingFields]
    omega
  · intro heq
    obtain rfl : content = saved := by cases heq; rfl
    have hle := h.nesting_le_of_eq rfl
    simp only [Encode.variant, Json.record, List.map, nesting, nestingFields]
    omega

/-- A list whose items take room of their own. -/
def itemsOf {α : Type} (decode : Decoder α) : Decoder (List α)
  | n + 1, .array items => items.mapM (decode n)
  | _, _ => none

namespace Tight

variable {α : Type} {room : Nat} {decode : Json → Option α} {encode : α → Json}

theorem flat (h : ∀ a, (encode a).nesting = 0) : Tight room decode encode :=
  ⟨fun _ => .flat (h _)⟩

theorem text : Tight room textOf Json.text :=
  flat fun _ => rfl

/-- A list, from its items. -/
theorem list {decode : Decoder α} {n : Nat} (h : ∀ m < n, Tight m (decode m) encode) :
    Tight n (itemsOf decode n) (Json.list encode) := by
  refine ⟨fun {j as} hj => ?_⟩
  unfold itemsOf at hj
  split at hj
  case h_1 m vs =>
    have h := h m (Nat.lt_succ_self m)
    have hitems := mapM_eq_some_iff.1 hj
    constructor
    · refine Nat.succ_le_succ (nestingItems_le_iff.2 (List.forall_mem_map.2 fun a ha => ?_))
      obtain ⟨v, hv, hread⟩ := exists_of_forall₂ hitems ha
      have hle := (h.rewrites hread).nesting_le
      have hv : v.nesting ≤ nestingItems vs := nestingItems_le_iff.1 (Nat.le_refl _) v hv
      show (encode a).nesting ≤ min (m + 1) (nestingItems vs + 1)
      omega
    · intro heq
      obtain rfl : vs = as.map encode := Json.array.inj heq
      rw [List.forall₂_map_left_iff, List.forall₂_same] at hitems
      refine Nat.succ_le_succ (nestingItems_le_iff.2 (List.forall_mem_map.2 fun a ha => ?_))
      exact (h.rewrites (hitems a ha)).nesting_le_of_eq rfl
  case h_2 => cases hj

theorem nullable (h : Tight room decode encode) :
    Tight room (Json.nullable decode) (Json.option encode) := by
  refine ⟨fun {j o} hj => ?_⟩
  unfold Json.nullable at hj
  split at hj
  · cases hj
    exact .flat rfl
  · obtain ⟨a, ha, rfl⟩ := Option.map_eq_some_iff.1 hj
    exact h.rewrites ha

theorem required (h : Tight room decode encode) :
    TightField room (Json.required decode) encode := by
  refine ⟨fun {slot a} hslot => ?_⟩
  cases slot with
  | given v => exact h.rewrites hslot
  | absent | cut => cases hslot

theorem defaulted (h : Tight room decode encode) {default : α}
    (hdefault : (encode default).nesting ≤ 1) :
    TightField room (Json.defaulted default decode) encode := by
  refine ⟨fun {slot a} hslot => ?_⟩
  cases slot with
  | given v => exact h.rewrites hslot
  | absent | cut =>
    cases hslot
    exact hdefault

/-- A list that may be left out. -/
theorem orEmpty {decodeAll : Json → Option (List α)} (h : Tight room decodeAll (Json.list encode)) :
    TightField room (Json.defaulted [] decodeAll) (Json.list encode) :=
  h.defaulted (Nat.le_refl 1)

theorem optional (h : Tight room decode encode) :
    TightField room (Json.optional decode) (Json.option encode) := by
  refine ⟨fun {slot o} hslot => ?_⟩
  cases slot with
  | given v => exact h.nullable.rewrites hslot
  | absent =>
    cases hslot
    exact Nat.zero_le _
  | cut => cases hslot

theorem optionalField (h : Tight room decode encode) :
    TightField room (Json.optionalField decode) (Json.option encode) := by
  refine ⟨fun {slot o} hslot => ?_⟩
  cases slot with
  | given v => exact h.nullable.rewrites hslot
  | absent | cut =>
    cases hslot
    exact Nat.zero_le _

end Tight

section

variable {α β γ δ ε : Type} {n : Nat} {j : Json} {x y z w : String} {c : ε}
  {readX : Slot → Option α} {readY : Slot → Option β} {readZ : Slot → Option γ}
  {readW : Slot → Option δ} {encodeX : α → Json} {encodeY : β → Json} {encodeZ : γ → Json}
  {encodeW : δ → Json}

/-- A record of two fields. -/
theorem Rewrites.pair {make : α → β → ε} (hnames : [x, y].Nodup)
    (hx : TightField n readX encodeX) (hy : TightField n readY encodeY)
    (h : (do
      let [x, y] ← slots? [x, y] j | none
      return make (← readX x) (← readY y)) = some c) :
    ∃ a b, c = make a b ∧
      Rewrites (n + 1) j (Json.record [(x, encodeX a), (y, encodeY b)]) := by
  obtain ⟨slots, hslots, h⟩ := Option.bind_eq_some_iff.1 h
  split at h
  · simp only [Option.pure_def, Option.bind_eq_bind, Option.bind_eq_some_iff] at h
    obtain ⟨a, ha, b, hb, h⟩ := h
    cases h
    exact ⟨a, b, rfl, .record hslots rfl hnames (.cons (hx.rewrites ha)
      (.cons (hy.rewrites hb) .nil))⟩
  · cases h

/-- A record of three fields. -/
theorem Rewrites.triple {make : α → β → γ → ε} (hnames : [x, y, z].Nodup)
    (hx : TightField n readX encodeX) (hy : TightField n readY encodeY)
    (hz : TightField n readZ encodeZ)
    (h : (do
      let [x, y, z] ← slots? [x, y, z] j | none
      return make (← readX x) (← readY y) (← readZ z)) = some c) :
    ∃ a b d, c = make a b d ∧
      Rewrites (n + 1) j (Json.record [(x, encodeX a), (y, encodeY b), (z, encodeZ d)]) := by
  obtain ⟨slots, hslots, h⟩ := Option.bind_eq_some_iff.1 h
  split at h
  · simp only [Option.pure_def, Option.bind_eq_bind, Option.bind_eq_some_iff] at h
    obtain ⟨a, ha, b, hb, d, hd, h⟩ := h
    cases h
    exact ⟨a, b, d, rfl, .record hslots rfl hnames (.cons (hx.rewrites ha)
      (.cons (hy.rewrites hb) (.cons (hz.rewrites hd) .nil)))⟩
  · cases h

/-- A record of four fields. -/
theorem Rewrites.quadruple {make : α → β → γ → δ → ε} (hnames : [x, y, z, w].Nodup)
    (hx : TightField n readX encodeX) (hy : TightField n readY encodeY)
    (hz : TightField n readZ encodeZ) (hw : TightField n readW encodeW)
    (h : (do
      let [x, y, z, w] ← slots? [x, y, z, w] j | none
      return make (← readX x) (← readY y) (← readZ z) (← readW w)) = some c) :
    ∃ a b d e, c = make a b d e ∧
      Rewrites (n + 1) j
        (Json.record [(x, encodeX a), (y, encodeY b), (z, encodeZ d), (w, encodeW e)]) := by
  obtain ⟨slots, hslots, h⟩ := Option.bind_eq_some_iff.1 h
  split at h
  · simp only [Option.pure_def, Option.bind_eq_bind, Option.bind_eq_some_iff] at h
    obtain ⟨a, ha, b, hb, d, hd, e, he, h⟩ := h
    cases h
    exact ⟨a, b, d, e, rfl, .record hslots rfl hnames (.cons (hx.rewrites ha)
      (.cons (hy.rewrites hb) (.cons (hz.rewrites hd) (.cons (hw.rewrites he) .nil))))⟩
  · cases h

end

end Json

open Json (Rewrites Tight Slot slots? required defaulted textOf)

/-! ## Sites and operators -/

theorem Span.tight (room : Nat) : Tight room (Decode.span room) Encode.span := by
  refine ⟨fun {j s} h => ?_⟩
  cases room with
  | zero => cases h
  | succ n =>
    have hword : Tight n Json.word64 fun w => .nat w.toNat := .flat fun _ => rfl
    obtain ⟨start, stop, rfl, hj⟩ := Rewrites.pair (by decide) hword.required hword.required h
    exact hj

theorem Site.rewrites {n : Nat} {id place : Slot} {s : Site} (h : Decode.site n id place = some s) :
    id.Rewrites n (Encode.nodeId s.id) ∧ place.Rewrites n (Encode.span s.span) := by
  simp only [Decode.site, Option.pure_def, Option.bind_eq_bind, Option.bind_eq_some_iff] at h
  obtain ⟨number, hnumber, span, hspan, h⟩ := h
  cases h
  have hid : Tight n Json.word32 Encode.nodeId := .flat fun _ => rfl
  exact ⟨hid.required.rewrites hnumber,
    ((Span.tight n).defaulted (Nat.le_refl 1)).rewrites hspan⟩

/-- A node, from what names its kind. -/
theorem Json.Rewrites.node {n : Nat} {j kind saved : Json} {id place : Slot} {s : Site}
    (hslots : slots? ["id", "kind", "span"] j = some [id, .given kind, place])
    (hsite : Decode.site n id place = some s) (hkind : Rewrites n kind saved) :
    Rewrites (n + 1) j (Encode.node s saved) :=
  have ⟨hid, hplace⟩ := Site.rewrites hsite
  .record hslots rfl (by decide) (.cons hid (.cons hkind (.cons hplace .nil)))

theorem BinaryOp.tight (room : Nat) : Tight room (Decode.binaryOp room) Encode.binaryOp :=
  .flat fun op => by cases op <;> rfl

theorem UnaryOp.tight (room : Nat) : Tight room (Decode.unaryOp room) Encode.unaryOp :=
  .flat fun op => by cases op <;> rfl

/-! ## Expressions -/

theorem Encode.array_exprs (es : List Expr) :
    Json.array (Encode.exprs es) = Json.list Encode.expr es :=
  congrArg Json.array (Encode.exprs_eq_map es)

theorem Encode.expr_call (s : Site) (receiver : Option Expr) (method : String) (args : List Expr) :
    Encode.expr (.call s receiver method args) =
      node s (variant "MethodCall" (.record
        [("receiver", .option expr receiver), ("method", .text method),
          ("args", .list expr args)])) := by
  rw [← Encode.array_exprs]
  cases receiver <;> rfl

theorem Encode.expr_new (s : Site) (type : String) (args : List Expr) :
    Encode.expr (.new s type args) =
      node s (variant "New" (.record [("ty", .text type), ("args", .list expr args)])) := by
  rw [← Encode.array_exprs]
  rfl

theorem Expr.tight_all {n : Nat} (h : ∀ m < n, Tight m (Decode.expr m) Encode.expr) :
    Tight n (Decode.exprs n) (Json.list Encode.expr) := by
  have hlist : Decode.exprs n = Json.itemsOf Decode.expr n := by
    funext j
    cases n <;> cases j <;> rfl
  exact hlist ▸ .list h

/-- An expression from the record of its parts. -/
theorem Expr.rewrites_parts {n : Nat} (h : ∀ m < n, Tight m (Decode.expr m) Encode.expr) {s : Site}
    {kind : String} {j : Json} {e : Expr} (hparts : Decode.exprParts n s kind j = some e) :
    ∃ fs, Encode.expr e = Encode.node s (Encode.variant kind (Json.record fs)) ∧
      Rewrites n j (Json.record fs) := by
  unfold Decode.exprParts at hparts
  split at hparts
  case h_1 n =>
    have hexpr := h n (Nat.lt_succ_self n)
    obtain ⟨object, name, rfl, hj⟩ :=
      Rewrites.pair (by decide) hexpr.required Tight.text.required hparts
    exact ⟨_, rfl, hj⟩
  case h_2 n =>
    have hexpr := h n (Nat.lt_succ_self n)
    have hexprs := tight_all fun m hm => h m (Nat.lt_succ_of_lt hm)
    obtain ⟨receiver, method, args, rfl, hj⟩ :=
      Rewrites.triple (by decide) hexpr.optional Tight.text.required hexprs.required hparts
    exact ⟨_, Encode.expr_call s receiver method args, hj⟩
  case h_3 n =>
    have hexprs := tight_all fun m hm => h m (Nat.lt_succ_of_lt hm)
    obtain ⟨type, args, rfl, hj⟩ :=
      Rewrites.pair (by decide) Tight.text.required hexprs.required hparts
    exact ⟨_, Encode.expr_new s type args, hj⟩
  case h_4 n =>
    have hexpr := h n (Nat.lt_succ_self n)
    obtain ⟨target, value, rfl, hj⟩ :=
      Rewrites.pair (by decide) hexpr.required hexpr.required hparts
    exact ⟨_, rfl, hj⟩
  case h_5 n =>
    have hexpr := h n (Nat.lt_succ_self n)
    obtain ⟨op, left, right, rfl, hj⟩ :=
      Rewrites.triple (by decide) (BinaryOp.tight n).required hexpr.required hexpr.required hparts
    exact ⟨_, rfl, hj⟩
  case h_6 n =>
    have hexpr := h n (Nat.lt_succ_self n)
    obtain ⟨op, operand, rfl, hj⟩ :=
      Rewrites.pair (by decide) (UnaryOp.tight n).required hexpr.required hparts
    exact ⟨_, rfl, hj⟩
  case h_7 n =>
    have hexpr := h n (Nat.lt_succ_self n)
    obtain ⟨condition, whenTrue, whenFalse, rfl, hj⟩ :=
      Rewrites.triple (by decide) hexpr.required hexpr.required hexpr.required hparts
    exact ⟨_, rfl, hj⟩
  case h_8 n =>
    have hexpr := h n (Nat.lt_succ_self n)
    obtain ⟨type, operand, rfl, hj⟩ :=
      Rewrites.pair (by decide) Tight.text.required hexpr.required hparts
    exact ⟨_, rfl, hj⟩
  case h_9 n =>
    have hexpr := h n (Nat.lt_succ_self n)
    obtain ⟨operand, type, rfl, hj⟩ :=
      Rewrites.pair (by decide) hexpr.required Tight.text.required hparts
    exact ⟨_, rfl, hj⟩
  case h_10 n =>
    have hexpr := h n (Nat.lt_succ_self n)
    obtain ⟨array, position, rfl, hj⟩ :=
      Rewrites.pair (by decide) hexpr.required hexpr.required hparts
    exact ⟨_, rfl, hj⟩
  case h_11 => cases hparts

/-- A kind without content is written as its name alone. -/
theorem Expr.rewrites_bare {room : Nat} {s : Site} {kind : String} {j : Json} {e : Expr}
    (h : Decode.bareExpr s kind = some e) :
    ∃ saved, Encode.expr e = Encode.node s saved ∧ Rewrites room j saved := by
  unfold Decode.bareExpr at h
  split at h
  · cases h
    exact ⟨_, rfl, .flat rfl⟩
  · cases h
    exact ⟨_, rfl, .flat rfl⟩
  · cases h

/-- An expression at a site, from what names its kind. -/
theorem Expr.rewrites_kind {n : Nat} (h : ∀ m < n, Tight m (Decode.expr m) Encode.expr) {s : Site}
    {j : Json} {e : Expr} (hkind : Decode.exprKind n s j = some e) :
    ∃ saved, Encode.expr e = Encode.node s saved ∧ Rewrites n j saved := by
  unfold Decode.exprKind at hkind
  split at hkind
  case h_1 => exact rewrites_bare hkind
  case h_2 n kind content =>
    -- The four kinds with a bare value come first.
    split at hkind
    case h_1 | h_2 | h_3 | h_4 =>
      obtain ⟨value, -, rfl⟩ := Option.map_eq_some_iff.1 hkind
      exact ⟨_, rfl, .variant (.flat rfl)⟩
    case h_5 =>
      split at hkind
      · exact rewrites_bare hkind
      · obtain ⟨fs, he, hfs⟩ := rewrites_parts (fun m hm => h m (Nat.lt_succ_of_lt hm)) hkind
        exact ⟨_, he, .variant hfs⟩
  case h_3 => cases hkind

theorem Expr.tight (n : Nat) : Tight n (Decode.expr n) Encode.expr := by
  induction n using Nat.strongRecOn with
  | ind n ih =>
    refine ⟨fun {j e} h => ?_⟩
    cases n with
    | zero => cases h
    | succ n =>
      obtain ⟨slots, hslots, h⟩ := Option.bind_eq_some_iff.1 h
      split at h
      · obtain ⟨s, hsite, hkind⟩ := Option.bind_eq_some_iff.1 h
        obtain ⟨saved, he, hsaved⟩ := rewrites_kind (fun m hm => ih m (Nat.lt_succ_of_lt hm)) hkind
        rw [he]
        exact .node hslots hsite hsaved
      · cases h

/-! ## Statements -/

theorem VarDecl.tight (room : Nat) : Tight room (Decode.varDecl room) Encode.varDecl := by
  refine ⟨fun {j v} h => ?_⟩
  cases room with
  | zero => cases h
  | succ n =>
    obtain ⟨slots, hslots, h⟩ := Option.bind_eq_some_iff.1 h
    split at h
    · simp only [Option.pure_def, Option.bind_eq_bind, Option.bind_eq_some_iff] at h
      obtain ⟨s, hsite, name, hname, type, htype, init, hinit, h⟩ := h
      cases h
      obtain ⟨hid, hspan⟩ := Site.rewrites hsite
      have htext : Tight n textOf Json.text := .text
      exact .record hslots rfl (by decide) (.cons hid (.cons (htext.required.rewrites hname)
        (.cons (htext.required.rewrites htype)
          (.cons ((Expr.tight n).optionalField.rewrites hinit) (.cons hspan .nil)))))
    · cases h

theorem VarDecl.tight_all (room : Nat) :
    Tight room (Decode.varDecls room) (Json.list Encode.varDecl) :=
  .list fun m _ => VarDecl.tight m

theorem Encode.array_stmts (body : List Stmt) :
    Json.array (Encode.stmts body) = Json.list Encode.stmt body :=
  congrArg Json.array (Encode.stmts_eq_map body)

theorem Encode.array_catchClauses (cs : List CatchClause) :
    Json.array (Encode.catchClauses cs) = Json.list Encode.catchClause cs :=
  congrArg Json.array (Encode.catchClauses_eq_map cs)

section

variable {s : Site} {condition : Expr} {body : List Stmt}

theorem Encode.stmt_ifStmt {thenBranch : List Stmt} {elseBranch : Option (List Stmt)} :
    Encode.stmt (.ifStmt s condition thenBranch elseBranch) =
      node s (variant "If" (.record
        [("cond", expr condition), ("then_branch", .list stmt thenBranch),
          ("else_branch", .option (Json.list stmt) elseBranch)])) := by
  cases elseBranch <;> simp only [stmt, array_stmts, Json.option]

theorem Encode.stmt_tryStmt {resources : List VarDecl} {catches : List CatchClause}
    {finallyBlock : Option (List Stmt)} :
    Encode.stmt (.tryStmt s resources body catches finallyBlock) =
      node s (variant "Try" (.record
        [("resources", .list varDecl resources), ("body", .list stmt body),
          ("catches", .list catchClause catches),
          ("finally", .option (Json.list stmt) finallyBlock)])) := by
  cases finallyBlock <;> simp only [stmt, array_stmts, array_catchClauses, Json.option]

end

theorem Stmt.tight_all {n : Nat} (h : ∀ m < n, Tight m (Decode.stmt m) Encode.stmt) :
    Tight n (Decode.stmts n) (Json.list Encode.stmt) := by
  have hlist : Decode.stmts n = Json.itemsOf Decode.stmt n := by
    funext j
    cases n <;> cases j <;> rfl
  exact hlist ▸ .list h

theorem CatchClause.tight {n : Nat} (h : ∀ m < n, Tight m (Decode.stmt m) Encode.stmt) :
    Tight n (Decode.catchClause n) Encode.catchClause := by
  refine ⟨fun {j c} hj => ?_⟩
  cases n with
  | zero => cases hj
  | succ n =>
    have hstmts := Stmt.tight_all fun m hm => h m (Nat.lt_succ_of_lt hm)
    unfold Decode.catchClause at hj
    obtain ⟨param, body, rfl, hrecord⟩ :=
      Rewrites.pair (by decide) (VarDecl.tight n).required hstmts.required hj
    rw [Encode.catchClause, Encode.array_stmts]
    exact hrecord

theorem CatchClause.tight_all {n : Nat} (h : ∀ m < n, Tight m (Decode.stmt m) Encode.stmt) :
    Tight n (Decode.catchClauses n) (Json.list Encode.catchClause) := by
  have hlist : Decode.catchClauses n = Json.itemsOf Decode.catchClause n := by
    funext j
    cases n <;> cases j <;> rfl
  exact hlist ▸ .list fun m hm => tight fun k hk => h k (Nat.lt_trans hk hm)

namespace Stmt

/-- A statement from the record of its parts. -/
theorem rewrites_parts {n : Nat} (h : ∀ m < n, Tight m (Decode.stmt m) Encode.stmt) {s : Site}
    {kind : String} {j : Json} {st : Stmt} (hparts : Decode.stmtParts n s kind j = some st) :
    ∃ fs, Encode.stmt st = Encode.node s (Encode.variant kind (Json.record fs)) ∧
      Rewrites n j (Json.record fs) := by
  unfold Decode.stmtParts at hparts
  split at hparts
  case h_1 n =>
    have hstmts := tight_all fun m hm => h m (Nat.lt_succ_of_lt hm)
    obtain ⟨condition, thenBranch, elseBranch, rfl, hj⟩ :=
      Rewrites.triple (by decide) (Expr.tight n).required hstmts.required hstmts.optional hparts
    exact ⟨_, Encode.stmt_ifStmt, hj⟩
  case h_2 n =>
    have hstmts := tight_all fun m hm => h m (Nat.lt_succ_of_lt hm)
    obtain ⟨condition, body, rfl, hj⟩ :=
      Rewrites.pair (by decide) (Expr.tight n).required hstmts.required hparts
    rw [Encode.stmt, Encode.array_stmts]
    exact ⟨_, rfl, hj⟩
  case h_3 n =>
    have hstmts := tight_all fun m hm => h m (Nat.lt_succ_of_lt hm)
    have hexprs := Expr.tight_all fun m (_ : m < n) => Expr.tight m
    obtain ⟨init, condition, update, body, rfl, hj⟩ :=
      Rewrites.quadruple (by decide) hstmts.required (Expr.tight n).optional hexprs.required
        hstmts.required hparts
    rw [Encode.stmt, Encode.array_stmts, Encode.array_stmts, Encode.array_exprs]
    exact ⟨_, rfl, hj⟩
  case h_4 n =>
    have hstmts := tight_all fun m hm => h m (Nat.lt_succ_of_lt hm)
    obtain ⟨var, iterated, body, rfl, hj⟩ :=
      Rewrites.triple (by decide) (VarDecl.tight n).required (Expr.tight n).required
        hstmts.required hparts
    rw [Encode.stmt, Encode.array_stmts]
    exact ⟨_, rfl, hj⟩
  case h_5 n =>
    have hstmts := tight_all fun m hm => h m (Nat.lt_succ_of_lt hm)
    have hcatches := CatchClause.tight_all fun m hm => h m (Nat.lt_succ_of_lt hm)
    obtain ⟨resources, body, catches, finallyBlock, rfl, hj⟩ :=
      Rewrites.quadruple (by decide) (VarDecl.tight_all n).orEmpty hstmts.required
        hcatches.orEmpty hstmts.optionalField hparts
    exact ⟨_, Encode.stmt_tryStmt, hj⟩
  case h_6 => cases hparts

/-- A kind without content is written as its name alone. -/
theorem rewrites_bare {room : Nat} {s : Site} {kind : String} {j : Json} {st : Stmt}
    (h : Decode.bareStmt s kind = some st) :
    ∃ saved, Encode.stmt st = Encode.node s saved ∧ Rewrites room j saved := by
  unfold Decode.bareStmt at h
  split at h
  · cases h
    exact ⟨_, rfl, .flat rfl⟩
  · cases h
    exact ⟨_, rfl, .flat rfl⟩
  · cases h

/-- A statement at a site, from what names its kind. -/
theorem rewrites_kind {n : Nat} (h : ∀ m < n, Tight m (Decode.stmt m) Encode.stmt) {s : Site}
    {j : Json} {st : Stmt} (hkind : Decode.stmtKind n s j = some st) :
    ∃ saved, Encode.stmt st = Encode.node s saved ∧ Rewrites n j saved := by
  unfold Decode.stmtKind at hkind
  split at hkind
  case h_1 => exact rewrites_bare hkind
  case h_2 n kind content =>
    split at hkind
    case h_1 | h_5 =>
      obtain ⟨value, hvalue, rfl⟩ := Option.map_eq_some_iff.1 hkind
      exact ⟨_, rfl, .variant ((Expr.tight n).rewrites hvalue)⟩
    case h_2 =>
      obtain ⟨var, hvar, rfl⟩ := Option.map_eq_some_iff.1 hkind
      exact ⟨_, rfl, .variant ((VarDecl.tight n).rewrites hvar)⟩
    case h_3 =>
      obtain ⟨value, hvalue, rfl⟩ := Option.map_eq_some_iff.1 hkind
      exact ⟨_, rfl, .variant ((Expr.tight n).nullable.rewrites hvalue)⟩
    case h_4 =>
      obtain ⟨body, hbody, rfl⟩ := Option.map_eq_some_iff.1 hkind
      have hstmts := tight_all fun m hm => h m (Nat.lt_succ_of_lt hm)
      rw [Encode.stmt, Encode.array_stmts]
      exact ⟨_, rfl, .variant (hstmts.rewrites hbody)⟩
    case h_6 =>
      split at hkind
      · exact rewrites_bare hkind
      · obtain ⟨fs, hst, hfs⟩ := rewrites_parts (fun m hm => h m (Nat.lt_succ_of_lt hm)) hkind
        exact ⟨_, hst, .variant hfs⟩
  case h_3 => cases hkind

theorem tight (n : Nat) : Tight n (Decode.stmt n) Encode.stmt := by
  induction n using Nat.strongRecOn with
  | ind n ih =>
    refine ⟨fun {j st} h => ?_⟩
    cases n with
    | zero => cases h
    | succ n =>
      obtain ⟨slots, hslots, h⟩ := Option.bind_eq_some_iff.1 h
      split at h
      · obtain ⟨s, hsite, hkind⟩ := Option.bind_eq_some_iff.1 h
        obtain ⟨saved, hst, hsaved⟩ :=
          rewrites_kind (fun m hm => ih m (Nat.lt_succ_of_lt hm)) hkind
        rw [hst]
        exact .node hslots hsite hsaved
      · cases h

end Stmt

/-! ## Declarations -/

theorem MethodDecl.tight (room : Nat) : Tight room (Decode.methodDecl room) Encode.methodDecl := by
  refine ⟨fun {j m} h => ?_⟩
  cases room with
  | zero => cases h
  | succ n =>
    obtain ⟨slots, hslots, h⟩ := Option.bind_eq_some_iff.1 h
    split at h
    · simp only [Option.pure_def, Option.bind_eq_bind, Option.bind_eq_some_iff] at h
      obtain ⟨s, hsite, name, hname, params, hparams, returnType, hreturn, body, hbody, h⟩ := h
      cases h
      obtain ⟨hid, hspan⟩ := Site.rewrites hsite
      have htext : Tight n textOf Json.text := .text
      have hvars := (VarDecl.tight_all n).orEmpty
      have hstmts := Stmt.tight_all fun m (_ : m < n) => Stmt.tight m
      rw [Encode.methodDecl, funext Encode.array_stmts]
      exact .record hslots rfl (by decide) (.cons hid (.cons (htext.required.rewrites hname)
        (.cons (hvars.rewrites hparams) (.cons (htext.optionalField.rewrites hreturn)
          (.cons (hstmts.optionalField.rewrites hbody) (.cons hspan .nil))))))
    · cases h

theorem MethodDecl.tight_all (room : Nat) :
    Tight room (Decode.methodDecls room) (Json.list Encode.methodDecl) :=
  .list fun m _ => MethodDecl.tight m

theorem Encode.array_classDecls (cs : List ClassDecl) :
    Json.array (Encode.classDecls cs) = Json.list Encode.classDecl cs :=
  congrArg Json.array (Encode.classDecls_eq_map cs)

namespace ClassDecl

theorem tight_all {n : Nat} (h : ∀ m < n, Tight m (Decode.classDecl m) Encode.classDecl) :
    Tight n (Decode.classDecls n) (Json.list Encode.classDecl) := by
  have hlist : Decode.classDecls n = Json.itemsOf Decode.classDecl n := by
    funext j
    cases n <;> cases j <;> rfl
  exact hlist ▸ .list h

theorem tight (n : Nat) : Tight n (Decode.classDecl n) Encode.classDecl := by
  induction n using Nat.strongRecOn with
  | ind n ih =>
    refine ⟨fun {j c} h => ?_⟩
    cases n with
    | zero => cases h
    | succ n =>
      obtain ⟨slots, hslots, h⟩ := Option.bind_eq_some_iff.1 h
      split at h
      · simp only [Option.pure_def, Option.bind_eq_bind, Option.bind_eq_some_iff] at h
        obtain ⟨s, hsite, name, hname, fields, hfields, methods, hmethods, nested, hnested, h⟩ := h
        cases h
        obtain ⟨hid, hspan⟩ := Site.rewrites hsite
        have htext : Tight n textOf Json.text := .text
        have hvars := (VarDecl.tight_all n).orEmpty
        have hmethodDecls := (MethodDecl.tight_all n).orEmpty
        have hclasses := (tight_all fun m hm => ih m (Nat.lt_succ_of_lt hm)).orEmpty
        rw [Encode.classDecl, Encode.array_classDecls]
        exact .record hslots rfl (by decide) (.cons hid (.cons (htext.required.rewrites hname)
          (.cons (hvars.rewrites hfields) (.cons (hmethodDecls.rewrites hmethods)
            (.cons (hclasses.rewrites hnested) (.cons hspan .nil))))))
      · cases h

end ClassDecl

/-! ## Units -/

theorem CompilationUnit.tight (room : Nat) :
    Tight room (Decode.compilationUnit room) Encode.compilationUnit := by
  refine ⟨fun {j u} h => ?_⟩
  cases room with
  | zero => cases h
  | succ n =>
    have htext : Tight n textOf Json.text := .text
    have htexts : Tight n (Json.texts n) (Json.list Json.text) := .list fun _ _ => .text
    have hclasses := ClassDecl.tight_all fun m (_ : m < n) => ClassDecl.tight m
    obtain ⟨package, imports, classes, rfl, hj⟩ :=
      Rewrites.triple (by decide) htext.optionalField htexts.orEmpty hclasses.orEmpty h
    rw [Encode.compilationUnit, Encode.array_classDecls]
    exact hj

theorem MethodSignature.tight (room : Nat) :
    Tight room (Decode.methodSignature room) Encode.methodSignature := by
  refine ⟨fun {j m} h => ?_⟩
  cases room with
  | zero => cases h
  | succ n =>
    have htext : Tight n textOf Json.text := .text
    obtain ⟨owner, method, returns, rfl, hj⟩ :=
      Rewrites.triple (by decide) htext.required htext.required htext.required h
    exact hj

theorem MethodSignature.tight_all (room : Nat) :
    Tight room (Decode.methodSignatures room) (Json.list Encode.methodSignature) :=
  .list fun m _ => MethodSignature.tight m

namespace SourceUnit

/-- Only the tree and the signatures of a unit nest. -/
theorem nesting_toJson (u : SourceUnit) :
    u.toJson.nesting = max (Encode.compilationUnit u.unit).nesting
      (Json.list Encode.methodSignature u.signatures).nesting + 1 := by
  obtain ⟨path, source, unit, signatures⟩ := u
  cases source <;> simp [toJson, Encode.sourceField, Json.record, Json.text, Json.nesting,
    Json.nestingFields]

/-- What is saved of a loaded unit nests at most one level deeper than what was read. -/
theorem nesting_toJson_le {n : Nat} {j : Json} {u : SourceUnit}
    (h : Decode.sourceUnit n j = some u) : u.toJson.nesting ≤ min n j.nesting + 1 := by
  cases n with
  | zero => cases h
  | succ n =>
    have htext : Tight n textOf Json.text := .text
    obtain ⟨path, source, unit, signatures, rfl, hj⟩ :=
      Rewrites.quadruple (by decide) (htext.defaulted (Nat.zero_le 1)) htext.optionalField
        (CompilationUnit.tight n).required (MethodSignature.tight_all n).orEmpty h
    refine Nat.le_trans (Nat.le_of_eq ?_) hj.nesting_le
    rw [nesting_toJson]
    cases source <;> simp [Json.record, Json.option, Json.text, Json.nesting, Json.nestingFields]

/-- Whether a saved unit is read depends on its tree and its signatures alone. -/
theorem decode_toJson (u : SourceUnit) (n : Nat) :
    Decode.sourceUnit (n + 1) u.toJson = do
      return { u with
        unit := ← Decode.compilationUnit n (Encode.compilationUnit u.unit)
        signatures := ← Decode.methodSignatures n
          (Json.list Encode.methodSignature u.signatures) } := by
  obtain ⟨path, source, unit, signatures⟩ := u
  cases source <;> rfl

theorem load?_compact {j : Json} (h : j.Whole) (file : String) :
    load? j.compact file = ofJson? j file := by
  rw [load?, Json.parse?_compact h]
  rfl

/-- A unit with a path is read back from what is saved of it just if that nests no deeper than a
file may. -/
theorem load?_save_eq_some_iff {u : SourceUnit} (hpath : u.path ≠ "") (file : String) :
    load? u.save file = some u ↔ u.toJson.nesting ≤ Json.maxNesting := by
  rw [save, load?_compact u.readsAs_toJson.whole]
  constructor
  · intro h
    rw [ofJson?, Json.maxNesting, decode_toJson] at h
    simp only [Option.pure_def, Option.bind_eq_bind, Option.bind_eq_some_iff] at h
    obtain ⟨v, ⟨unit, hunit, signatures, hsignatures, hv⟩, h⟩ := h
    cases hv
    have hu := Option.some.inj h
    rw [if_neg hpath] at hu
    obtain rfl : unit = u.unit := congrArg SourceUnit.unit hu
    obtain rfl : signatures = u.signatures := congrArg SourceUnit.signatures hu
    have hunit := ((CompilationUnit.tight _).rewrites hunit).nesting_le_of_eq rfl
    have hsignatures := ((MethodSignature.tight_all _).rewrites hsignatures).nesting_le_of_eq rfl
    rw [nesting_toJson]
    exact Nat.succ_le_succ (Nat.max_le.2 ⟨hunit, hsignatures⟩)
  · exact ofJson?_toJson u file hpath

theorem path_ne_of_ofJson? {j : Json} {file : String} {u : SourceUnit} (hfile : file ≠ "")
    (h : ofJson? j file = some u) : u.path ≠ "" := by
  obtain ⟨v, -, h⟩ := Option.bind_eq_some_iff.1 h
  cases h
  split
  · exact hfile
  · assumption

theorem nesting_toJson_le_of_ofJson? {j : Json} {file : String} {u : SourceUnit}
    (h : ofJson? j file = some u) : u.toJson.nesting ≤ min Json.maxNesting j.nesting + 1 := by
  obtain ⟨v, hv, h⟩ := Option.bind_eq_some_iff.1 h
  cases h
  have hle := nesting_toJson_le hv
  rw [nesting_toJson] at hle ⊢
  split
  · exact hle
  · exact hle

/-- A unit that loads under the name of a file nests at most one level deeper when it is saved, and
loads from there as it was, unless that level is one more than a file may nest. -/
theorem load?_save_of_load? {text file : String} {u : SourceUnit} (hfile : file ≠ "")
    (h : load? text file = some u) :
    ∃ j, Json.parse? text = some j ∧
      u.toJson.nesting ≤ min Json.maxNesting j.nesting + 1 ∧
      (load? u.save file = some u ↔ u.toJson.nesting ≤ Json.maxNesting) := by
  obtain ⟨j, hparse, hj⟩ := Option.bind_eq_some_iff.1 h
  exact ⟨j, hparse, nesting_toJson_le_of_ofJson? hj,
    load?_save_eq_some_iff (path_ne_of_ofJson? hfile hj) file⟩

/-- Records as arrays, without spans and lists, and with fields that nobody reads. -/
def looseFile : Json :=
  .array [.text "", .null, .record [("note", .array [.array []]), ("classes", .array [
    .array [.nat 1, .text "A", .array [
        .record [("ty", .text "R"), ("id", .nat 2), ("kept", .null), ("name", .text "f")]],
      .array [.record [("body", .array [
          .array [.nat 4, Encode.variant "Try" (.record [("body", .array [])])],
          .record [("kind", Encode.variant "Break" .null), ("id", .nat 5)]]),
        ("id", .nat 3), ("name", .text "m")]]]])]]

def looseUnit : SourceUnit where
  path := "A.java"
  source := none
  unit := {
    imports := []
    classes := [{
      site := ⟨1, {}⟩
      name := "A"
      fields := [⟨⟨2, {}⟩, "f", "R", none⟩]
      methods := [{
        site := ⟨3, {}⟩, name := "m", params := [], returnType := none
        body := some [.tryStmt ⟨4, {}⟩ [] [] [] none, .breakStmt ⟨5, {}⟩] }]
      nested := [] }] }
  signatures := []

theorem load?_save_looseUnit :
    "A.java" ≠ "" ∧ load? looseFile.compact "A.java" = some looseUnit ∧
    load? looseUnit.save "A.java" = some looseUnit := by
  have hfile : "A.java" ≠ "" := by decide
  have hload : load? looseFile.compact "A.java" = some looseUnit := by
    have hwhole : looseFile.Whole := by
      simp [looseFile, Json.Whole, Json.WholeItems, Json.WholeFields, Json.record, Encode.variant,
        Json.text, Json.nat]
    rw [load?_compact hwhole]
    rfl
  obtain ⟨-, -, -, hsave⟩ := load?_save_of_load? hfile hload
  exact ⟨hfile, hload, hsave.2 (by decide +kernel)⟩

/-! ## The last level -/

/-- `null` under casts. -/
def castNull : Nat → Expr
  | 0 => .null ⟨0, {}⟩
  | k + 1 => .cast ⟨UInt32.ofNat (k + 1), {}⟩ "R" (castNull k)

/-- The same as a file may have it, without spans. -/
def castNullBare : Nat → Json
  | 0 => .record [("id", .nat 0), ("kind", .text "Null")]
  | k + 1 =>
    .record [("id", Encode.nodeId (UInt32.ofNat (k + 1))),
      ("kind", Encode.variant "Cast" (.record [("ty", .text "R"), ("expr", castNullBare k)]))]

theorem whole_castNullBare (k : Nat) : (castNullBare k).Whole := by
  induction k with
  | zero => exact ⟨trivial, trivial, trivial⟩
  | succ k ih => exact ⟨trivial, ⟨⟨trivial, ih, trivial⟩, trivial⟩, trivial⟩

/-- A field whose initial value reaches the last level of a file. -/
def deepUnit : SourceUnit where
  path := "Deep.java"
  source := none
  unit := {
    imports := []
    classes := [{
      site := ⟨100, {}⟩
      name := "Deep"
      fields := [⟨⟨101, {}⟩, "f", "R", some (castNull 40)⟩]
      methods := []
      nested := [] }] }
  signatures := []

def deepFile : Json :=
  .record [("path", .text "Deep.java"), ("unit", .record [("classes", .array [
    .record [("id", .nat 100), ("name", .text "Deep"), ("fields", .array [
      .record [("id", .nat 101), ("name", .text "f"), ("ty", .text "R"),
        ("init", castNullBare 40)]])]])])]

set_option maxRecDepth 20000 in
theorem ofJson?_deepFile : ofJson? deepFile "Deep.java" = some deepUnit := by
  rfl

/-- On the last level of its file the value has no span. When the unit is saved, that span takes one
level more, and the saved file is refused. -/
theorem load?_save_deepUnit :
    "Deep.java" ≠ "" ∧ load? deepFile.compact "Deep.java" = some deepUnit ∧
    load? deepUnit.save "Deep.java" = none := by
  refine ⟨by decide, ?_, ?_⟩
  · have hwhole : deepFile.Whole := by
      simp [deepFile, whole_castNullBare, Json.Whole, Json.WholeItems, Json.WholeFields,
        Json.record, Json.text, Json.nat]
    rw [load?_compact hwhole, ofJson?_deepFile]
  · have hrefused : (ofJson? deepUnit.toJson "Deep.java").isNone = true := by decide +kernel
    rw [save, load?_compact (readsAs_toJson deepUnit).whole]
    exact Option.isNone_iff_eq_none.1 hrefused

end SourceUnit

end HandleLint
