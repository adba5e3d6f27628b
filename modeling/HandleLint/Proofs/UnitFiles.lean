import HandleLint.Tree.Decode
import HandleLint.Tree.Encode
import HandleLint.Proofs.JsonText

/-!
# Reading saved unit files

A unit that is saved loads again as it was, if its file nests no deeper than a file may. Each part
of a tree is followed from its value to its JSON form and back (`Json.ReadsAs`), with just the room
that the form nests.

* `Json.nesting`: how deep a value nests;
* `Json.ReadsAs`: a value from which a decoder gets a given result;
* `Expr.readsAs_toJson`, `Stmt.readsAs_toJson`, `ClassDecl.readsAs_toJson`: the parts of a tree;
* `load?_save`: whole units.
-/

namespace HandleLint

namespace Json

mutual

/-- How many levels of arrays and objects a value nests. -/
def nesting : Json → Nat
  | .array vs => nestingItems vs + 1
  | .object fs => nestingFields fs + 1
  | .null | .bool _ | .int _ | .decimal _ | .string _ => 0

def nestingItems : List Json → Nat
  | [] => 0
  | v :: rest => max v.nesting (nestingItems rest)

def nestingFields : List (Option String × Json) → Nat
  | [] => 0
  | (_, v) :: rest => max v.nesting (nestingFields rest)

end

theorem nestingItems_le_iff {vs : List Json} {n : Nat} :
    nestingItems vs ≤ n ↔ ∀ v ∈ vs, v.nesting ≤ n := by
  induction vs with
  | nil => simp [nestingItems]
  | cons v rest ih => rw [nestingItems, Nat.max_le, ih, List.forall_mem_cons]

theorem nestingFields_le_iff {fs : List (Option String × Json)} {n : Nat} :
    nestingFields fs ≤ n ↔ ∀ f ∈ fs, f.2.nesting ≤ n := by
  induction fs with
  | nil => simp [nestingFields]
  | cons f rest ih => rw [nestingFields, Nat.max_le, ih, List.forall_mem_cons]

theorem wholeItems_iff {vs : List Json} : WholeItems vs ↔ ∀ v ∈ vs, v.Whole := by
  induction vs with
  | nil => simp [WholeItems]
  | cons v rest ih => rw [WholeItems, ih, List.forall_mem_cons]

theorem wholeFields_iff {fs : List (Option String × Json)} :
    WholeFields fs ↔ ∀ f ∈ fs, f.2.Whole := by
  induction fs with
  | nil => simp [WholeFields]
  | cons f rest ih => rw [WholeFields, ih, List.forall_mem_cons]

theorem array_ne_null (vs : List Json) : Json.array vs ≠ .null :=
  nofun

theorem text_ne_null (s : String) : Json.text s ≠ .null :=
  nofun

/-- The decoder gets `a` from `j` when it has as much room as `j` nests, and `j` can be printed. -/
structure ReadsAs {α : Type} (decode : Decoder α) (j : Json) (a : α) : Prop where
  whole : j.Whole
  decode : ∀ {room}, j.nesting ≤ room → decode room j = some a

namespace ReadsAs

variable {α : Type} {decode inner : Decoder α} {a : α}

theorem exists_room {k room : Nat} (h : k + 1 ≤ room) : ∃ n, room = n + 1 ∧ k ≤ n :=
  ⟨room - 1, by omega, by omega⟩

theorem text (s : String) : ReadsAs (fun _ => textOf) (Json.text s) s :=
  ⟨trivial, fun _ => rfl⟩

/-- A record, from what its fields hold. -/
theorem record {fs : List (String × Json)} (hwhole : (fs.map Prod.snd).Forall Whole)
    (h : ∀ n, (fs.map Prod.snd).Forall (·.nesting ≤ n) → decode (n + 1) (Json.record fs) = some a) :
    ReadsAs decode (Json.record fs) a where
  whole :=
    have hfields := List.forall_mem_map.1 (List.forall_iff_forall_mem.1 hwhole)
    wholeFields_iff.2 (List.forall_mem_map.2 hfields)
  decode := by
    intro room hroom
    obtain ⟨n, rfl, hn⟩ := exists_room hroom
    have hfields := List.forall_mem_map.1 (nestingFields_le_iff.1 hn)
    exact h n (List.forall_iff_forall_mem.2 (List.forall_mem_map.2 hfields))

/-- A form with content. -/
theorem variant {kind : String} {content : Json}
    (hvariant : ∀ n, decode (n + 1) (Encode.variant kind content) = inner n content)
    (h : ReadsAs inner content a) : ReadsAs decode (Encode.variant kind content) a :=
  record h.whole fun n hn => (hvariant n).trans (h.decode hn)

theorem mapM_map {encode : α → Json} {n : Nat} {as : List α}
    (h : ∀ a ∈ as, decode n (encode a) = some a) : (as.map encode).mapM (decode n) = some as := by
  induction as with
  | nil => rfl
  | cons a as ih =>
    obtain ⟨ha, has⟩ := List.forall_mem_cons.1 h
    rw [List.map_cons, List.mapM_cons, ha, ih has]
    rfl

/-- A list, from its items. -/
theorem array {decodeAll : Decoder (List α)} {encode : α → Json}
    (hall : ∀ n vs, decodeAll (n + 1) (.array vs) = vs.mapM (decode n)) {as : List α}
    (h : ∀ a ∈ as, ReadsAs decode (encode a) a) :
    ReadsAs decodeAll (.array (as.map encode)) as where
  whole := by
    refine wholeItems_iff.2 ?_
    simpa using fun a ha => (h a ha).whole
  decode := by
    -- A container takes one level, and leaves the rest to what it holds.
    intro room hroom
    obtain ⟨n, rfl, hn⟩ := exists_room hroom
    have hitems := nestingItems_le_iff.1 hn
    rw [hall]
    exact mapM_map fun a ha => (h a ha).decode (hitems _ (List.mem_map_of_mem ha))

theorem present {j : Json} (hnull : j ≠ .null) (h : ReadsAs decode j a) :
    ReadsAs (fun n => nullable (decode n)) j (some a) := by
  refine ⟨h.whole, fun {room} hroom => ?_⟩
  show nullable (decode room) j = _
  unfold nullable
  split
  · contradiction
  · rw [h.decode hroom]
    rfl

/-- A value that may be absent, if none is written as `null`. -/
theorem option {encode : α → Json} (hnull : ∀ a, encode a ≠ .null)
    (h : ∀ a, ReadsAs decode (encode a) a) (o : Option α) :
    ReadsAs (fun n => nullable (decode n)) (Json.option encode o) o := by
  cases o with
  | none => exact ⟨trivial, fun _ => rfl⟩
  | some a => exact present (hnull a) (h a)

end ReadsAs

end Json

open Json (ReadsAs nullable textOf)

/-! ## Sites and operators -/

theorem Json.word32_nat (n : UInt32) : Json.word32 (.nat n.toNat) = some n := by
  simp [word32, nat, natBelow, n.toNat_lt_size]

theorem Json.word64_nat (n : UInt64) : Json.word64 (.nat n.toNat) = some n := by
  simp [word64, nat, natBelow, n.toNat_lt_size]

theorem Json.signed64_toInt (n : Int64) : Json.signed64 (.int n.toInt) = some n := by
  rw [signed64, if_pos ⟨n.minValue_le_toInt, n.toInt_le⟩, Int64.ofInt_toInt]

theorem Span.readsAs_toJson (s : Span) : ReadsAs Decode.span (Encode.span s) s :=
  .record ⟨trivial, trivial⟩ fun n _ => by
    show (do return Span.mk (← Json.word64 _) (← Json.word64 _)) = some s
    rw [Json.word64_nat, Json.word64_nat]
    rfl

theorem Site.site_given (s : Site) {n : Nat} (h : (Encode.span s.span).nesting ≤ n) :
    Decode.site n (.given (Encode.nodeId s.id)) (.given (Encode.span s.span)) = some s := by
  show (do return Site.mk (← Json.word32 _) (← Decode.span n _)) = some s
  rw [Encode.nodeId, Json.word32_nat, (Span.readsAs_toJson s.span).decode h]
  rfl

/-- A node, from what names its kind. -/
theorem Json.ReadsAs.node {α : Type} {decode : Json.Decoder α}
    {decodeKind : Nat → Site → Json → Option α} {s : Site} {kind : Json} {a : α}
    (hnode : ∀ n, decode (n + 1) (Encode.node s kind) =
      (Decode.site n (.given (Encode.nodeId s.id)) (.given (Encode.span s.span))).bind
        fun s => decodeKind n s kind)
    (h : ReadsAs (fun n => decodeKind n s) kind a) : ReadsAs decode (Encode.node s kind) a :=
  .record ⟨trivial, h.whole, (Span.readsAs_toJson s.span).whole⟩ fun n ⟨_, hkind, hspan⟩ => by
    refine (hnode n).trans ?_
    rw [Site.site_given s hspan]
    exact h.decode hkind

theorem BinaryOp.readsAs_toJson (op : BinaryOp) :
    ReadsAs Decode.binaryOp (Encode.binaryOp op) op := by
  cases op <;> exact ⟨trivial, fun _ => rfl⟩

theorem UnaryOp.readsAs_toJson (op : UnaryOp) : ReadsAs Decode.unaryOp (Encode.unaryOp op) op := by
  cases op <;> exact ⟨trivial, fun _ => rfl⟩

/-! ## Expressions -/

theorem Expr.readsAs_node {s : Site} {kind : Json} {e : Expr}
    (h : ReadsAs (fun n => Decode.exprKind n s) kind e) :
    ReadsAs Decode.expr (Encode.node s kind) e :=
  .node (fun _ => rfl) h

theorem Expr.readsAs_bare {s : Site} {kind : String} {e : Expr}
    (h : Decode.bareExpr s kind = some e) :
    ReadsAs Decode.expr (Encode.node s (.text kind)) e := by
  refine readsAs_node ⟨trivial, fun {room} _ => ?_⟩
  cases room <;> exact h

/-- An expression from the record of its parts. -/
theorem Expr.readsAs_parts {s : Site} {kind : String} {fs : List (String × Json)} {e : Expr}
    (hkind : kind ∉ ["Bool", "Int", "String", "Ident"])
    (h : ReadsAs (fun n => Decode.exprParts n s kind) (Json.record fs) e) :
    ReadsAs Decode.expr (Encode.node s (Encode.variant kind (Json.record fs))) e := by
  refine readsAs_node (.variant (fun n => ?_) h)
  simp only [List.mem_cons, List.not_mem_nil, or_false, not_or] at hkind
  obtain ⟨hbool, hint, hstring, hident⟩ := hkind
  show Decode.exprKind (n + 1) s (.object [(some kind, .object _)]) = _
  unfold Decode.exprKind
  -- The four kinds with a bare value come first.
  split
  · contradiction
  · contradiction
  · contradiction
  · contradiction
  · rfl

theorem Encode.expr_ne_null (e : Expr) : Encode.expr e ≠ .null := by
  cases e with
  | call _ receiver _ _ => cases receiver <;> rintro ⟨⟩
  | _ => rintro ⟨⟩

theorem Encode.exprs_eq_map (es : List Expr) : Encode.exprs es = es.map Encode.expr := by
  induction es with
  | nil => rfl
  | cons e es ih => rw [exprs, ih, List.map_cons]

theorem Expr.readsAs_all {es : List Expr}
    (h : ∀ e ∈ es, ReadsAs Decode.expr (Encode.expr e) e) :
    ReadsAs Decode.exprs (.array (Encode.exprs es)) es := by
  rw [Encode.exprs_eq_map]
  exact .array (fun _ _ => rfl) h

mutual

/-- An expression is read back from its JSON form. -/
theorem Expr.readsAs_toJson : ∀ e : Expr, ReadsAs Decode.expr (Encode.expr e) e
  | .null s => readsAs_bare rfl
  | .this s => readsAs_bare rfl
  | .bool s b => readsAs_node (.record trivial fun _ _ => rfl)
  | .int s n => readsAs_node <| .record trivial fun _ _ => by
      show (Json.signed64 (.int n.toInt)).map (Expr.int s) = _
      rw [Json.signed64_toInt]
      rfl
  | .string s value => readsAs_node (.record trivial fun _ _ => rfl)
  | .ident s name => readsAs_node (.record trivial fun _ _ => rfl)
  | .field s object name =>
    have hobject := readsAs_toJson object
    readsAs_parts (by decide) <| .record ⟨hobject.whole, trivial⟩ fun n ⟨ho, _⟩ => by
      show (do return Expr.field s (← Decode.expr n _) (← textOf (.text name))) = _
      rw [hobject.decode ho]
      rfl
  | .call s none method args =>
    have hargs := readsAs_all (readsAs_mem args)
    readsAs_parts (by decide) <|
      .record ⟨trivial, trivial, hargs.whole⟩ fun n ⟨_, _, ha⟩ => by
        show (do
          return Expr.call s (← some none) (← textOf (.text method)) (← Decode.exprs n _)) = _
        rw [hargs.decode ha]
        rfl
  | .call s (some receiver) method args =>
    have hreceiver := (readsAs_toJson receiver).present (Encode.expr_ne_null receiver)
    have hargs := readsAs_all (readsAs_mem args)
    readsAs_parts (by decide) <|
      .record ⟨hreceiver.whole, trivial, hargs.whole⟩ fun n ⟨hr, _, ha⟩ => by
        show (do
          return Expr.call s (← nullable (Decode.expr n) _) (← textOf (.text method))
            (← Decode.exprs n _)) = _
        rw [hreceiver.decode hr, hargs.decode ha]
        rfl
  | .new s type args =>
    have hargs := readsAs_all (readsAs_mem args)
    readsAs_parts (by decide) <| .record ⟨trivial, hargs.whole⟩ fun n ⟨_, ha⟩ => by
      show (do return Expr.new s (← textOf (.text type)) (← Decode.exprs n _)) = _
      rw [hargs.decode ha]
      rfl
  | .assign s target value =>
    have htarget := readsAs_toJson target
    have hvalue := readsAs_toJson value
    readsAs_parts (by decide) <| .record ⟨htarget.whole, hvalue.whole⟩ fun n ⟨ht, hv⟩ => by
      show (do return Expr.assign s (← Decode.expr n _) (← Decode.expr n _)) = _
      rw [htarget.decode ht, hvalue.decode hv]
      rfl
  | .binary s op left right =>
    have hop := op.readsAs_toJson
    have hleft := readsAs_toJson left
    have hright := readsAs_toJson right
    readsAs_parts (by decide) <|
      .record ⟨hop.whole, hleft.whole, hright.whole⟩ fun n ⟨ho, hl, hr⟩ => by
        show (do
          return Expr.binary s (← Decode.binaryOp n _) (← Decode.expr n _)
            (← Decode.expr n _)) = _
        rw [hop.decode ho, hleft.decode hl, hright.decode hr]
        rfl
  | .unary s op operand =>
    have hop := op.readsAs_toJson
    have hoperand := readsAs_toJson operand
    readsAs_parts (by decide) <| .record ⟨hop.whole, hoperand.whole⟩ fun n ⟨ho, hv⟩ => by
      show (do return Expr.unary s (← Decode.unaryOp n _) (← Decode.expr n _)) = _
      rw [hop.decode ho, hoperand.decode hv]
      rfl
  | .conditional s condition whenTrue whenFalse =>
    have hcondition := readsAs_toJson condition
    have htrue := readsAs_toJson whenTrue
    have hfalse := readsAs_toJson whenFalse
    readsAs_parts (by decide) <|
      .record ⟨hcondition.whole, htrue.whole, hfalse.whole⟩ fun n ⟨hc, ht, hf⟩ => by
        show (do
          return Expr.conditional s (← Decode.expr n _) (← Decode.expr n _)
            (← Decode.expr n _)) = _
        rw [hcondition.decode hc, htrue.decode ht, hfalse.decode hf]
        rfl
  | .cast s type operand =>
    have hoperand := readsAs_toJson operand
    readsAs_parts (by decide) <| .record ⟨trivial, hoperand.whole⟩ fun n ⟨_, ho⟩ => by
      show (do return Expr.cast s (← textOf (.text type)) (← Decode.expr n _)) = _
      rw [hoperand.decode ho]
      rfl
  | .instanceOf s operand type =>
    have hoperand := readsAs_toJson operand
    readsAs_parts (by decide) <| .record ⟨hoperand.whole, trivial⟩ fun n ⟨ho, _⟩ => by
      show (do return Expr.instanceOf s (← Decode.expr n _) (← textOf (.text type))) = _
      rw [hoperand.decode ho]
      rfl
  | .index s array position =>
    have harray := readsAs_toJson array
    have hposition := readsAs_toJson position
    readsAs_parts (by decide) <| .record ⟨harray.whole, hposition.whole⟩ fun n ⟨ha, hp⟩ => by
      show (do return Expr.index s (← Decode.expr n _) (← Decode.expr n _)) = _
      rw [harray.decode ha, hposition.decode hp]
      rfl

theorem Expr.readsAs_mem : ∀ es : List Expr, ∀ e ∈ es, ReadsAs Decode.expr (Encode.expr e) e
  | [], _, h => absurd h List.not_mem_nil
  | e :: _, _, .head _ => readsAs_toJson e
  | _ :: es, _, .tail _ h => readsAs_mem es _ h

end

/-! ## Statements -/

theorem VarDecl.readsAs_toJson (v : VarDecl) : ReadsAs Decode.varDecl (Encode.varDecl v) v :=
  have hinit := ReadsAs.option Encode.expr_ne_null Expr.readsAs_toJson v.init
  have hspan := v.site.span.readsAs_toJson
  .record ⟨trivial, trivial, trivial, hinit.whole, hspan.whole⟩ fun n ⟨_, _, _, hi, hs⟩ => by
    show (do
      let s ← Decode.site n (.given (Encode.nodeId v.site.id)) (.given (Encode.span v.site.span))
      return VarDecl.mk s (← textOf (.text v.name)) (← textOf (.text v.type))
        (← nullable (Decode.expr n) _)) = _
    rw [v.site.site_given hs, hinit.decode hi]
    rfl

theorem VarDecl.readsAs_list (vs : List VarDecl) :
    ReadsAs Decode.varDecls (Json.list Encode.varDecl vs) vs :=
  .array (fun _ _ => rfl) fun v _ => v.readsAs_toJson

theorem Stmt.readsAs_node {s : Site} {kind : Json} {st : Stmt}
    (h : ReadsAs (fun n => Decode.stmtKind n s) kind st) :
    ReadsAs Decode.stmt (Encode.node s kind) st :=
  .node (fun _ => rfl) h

theorem Stmt.readsAs_bare {s : Site} {kind : String} {st : Stmt}
    (h : Decode.bareStmt s kind = some st) :
    ReadsAs Decode.stmt (Encode.node s (.text kind)) st := by
  refine readsAs_node ⟨trivial, fun {room} _ => ?_⟩
  cases room <;> exact h

/-- A statement from the record of its parts. -/
theorem Stmt.readsAs_parts {s : Site} {kind : String} {fs : List (String × Json)} {st : Stmt}
    (hkind : kind ∉ ["Expr", "Local", "Return", "Block", "Throw"])
    (h : ReadsAs (fun n => Decode.stmtParts n s kind) (Json.record fs) st) :
    ReadsAs Decode.stmt (Encode.node s (Encode.variant kind (Json.record fs))) st := by
  refine readsAs_node (.variant (fun n => ?_) h)
  simp only [List.mem_cons, List.not_mem_nil, or_false, not_or] at hkind
  obtain ⟨hexpr, hlocal, hreturn, hblock, hthrow⟩ := hkind
  show Decode.stmtKind (n + 1) s (.object [(some kind, .object _)]) = _
  unfold Decode.stmtKind
  split
  · contradiction
  · contradiction
  · contradiction
  · contradiction
  · contradiction
  · rfl

theorem Encode.stmts_eq_map (body : List Stmt) : Encode.stmts body = body.map Encode.stmt := by
  induction body with
  | nil => rfl
  | cons st body ih => rw [stmts, ih, List.map_cons]

/-- The JSON form of one catch clause. -/
def Encode.catchClause (c : CatchClause) : Json :=
  .record [("param", varDecl c.param), ("body", .array (stmts c.body))]

theorem Encode.catchClauses_eq_map (cs : List CatchClause) :
    Encode.catchClauses cs = cs.map Encode.catchClause := by
  induction cs with
  | nil => rfl
  | cons c cs ih =>
    cases c
    rw [catchClauses, ih, List.map_cons]
    rfl

theorem Stmt.readsAs_all {body : List Stmt}
    (h : ∀ st ∈ body, ReadsAs Decode.stmt (Encode.stmt st) st) :
    ReadsAs Decode.stmts (.array (Encode.stmts body)) body := by
  rw [Encode.stmts_eq_map]
  exact .array (fun _ _ => rfl) h

theorem CatchClause.readsAs_all {cs : List CatchClause}
    (h : ∀ c ∈ cs, ReadsAs Decode.catchClause (Encode.catchClause c) c) :
    ReadsAs Decode.catchClauses (.array (Encode.catchClauses cs)) cs := by
  rw [Encode.catchClauses_eq_map]
  exact .array (fun _ _ => rfl) h

theorem CatchClause.readsAs_of_body (param : VarDecl) {body : List Stmt}
    (hbody : ReadsAs Decode.stmts (.array (Encode.stmts body)) body) :
    ReadsAs Decode.catchClause (Encode.catchClause (.mk param body)) (.mk param body) :=
  have hparam := param.readsAs_toJson
  .record ⟨hparam.whole, hbody.whole⟩ fun n ⟨hp, hb⟩ => by
    show (do
      return CatchClause.mk (← Decode.varDecl n (Encode.varDecl param))
        (← Decode.stmts n (.array (Encode.stmts body)))) = _
    rw [hparam.decode hp, hbody.decode hb]
    rfl

namespace Stmt

mutual

/-- A statement is read back from its JSON form. -/
theorem readsAs_toJson : ∀ st : Stmt, ReadsAs Decode.stmt (Encode.stmt st) st
  | .breakStmt s => readsAs_bare rfl
  | .continueStmt s => readsAs_bare rfl
  | .exprStmt s value =>
    have hvalue := value.readsAs_toJson
    readsAs_node <| .record hvalue.whole fun n hv => by
      show (Decode.expr n _).map (Stmt.exprStmt s) = _
      rw [hvalue.decode hv]
      rfl
  | .localVar s var =>
    have hvar := var.readsAs_toJson
    readsAs_node <| .record hvar.whole fun n hv => by
      show (Decode.varDecl n _).map (Stmt.localVar s) = _
      rw [hvar.decode hv]
      rfl
  | .returnStmt s value =>
    have hvalue := ReadsAs.option Encode.expr_ne_null Expr.readsAs_toJson value
    readsAs_node <| .record hvalue.whole fun n hv => by
      show (nullable (Decode.expr n) _).map (Stmt.returnStmt s) = _
      rw [hvalue.decode hv]
      rfl
  | .throwStmt s value =>
    have hvalue := value.readsAs_toJson
    readsAs_node <| .record hvalue.whole fun n hv => by
      show (Decode.expr n _).map (Stmt.throwStmt s) = _
      rw [hvalue.decode hv]
      rfl
  | .block s body =>
    have hbody := readsAs_all (readsAs_mem body)
    readsAs_node <| .record hbody.whole fun n hb => by
      show (Decode.stmts n _).map (Stmt.block s) = _
      rw [hbody.decode hb]
      rfl
  | .ifStmt s condition thenBranch none =>
    have hcondition := condition.readsAs_toJson
    have hthen := readsAs_all (readsAs_mem thenBranch)
    readsAs_parts (by decide) <|
      .record ⟨hcondition.whole, hthen.whole, trivial⟩ fun n ⟨hc, ht, _⟩ => by
        show (do return Stmt.ifStmt s (← Decode.expr n _) (← Decode.stmts n _) (← some none)) = _
        rw [hcondition.decode hc, hthen.decode ht]
        rfl
  | .ifStmt s condition thenBranch (some elseBranch) =>
    have hcondition := condition.readsAs_toJson
    have hthen := readsAs_all (readsAs_mem thenBranch)
    have helse := (readsAs_all (readsAs_mem elseBranch)).present (Json.array_ne_null _)
    readsAs_parts (by decide) <|
      .record ⟨hcondition.whole, hthen.whole, helse.whole⟩ fun n ⟨hc, ht, he⟩ => by
        show (do
          return Stmt.ifStmt s (← Decode.expr n _) (← Decode.stmts n _)
            (← nullable (Decode.stmts n) (.array (Encode.stmts elseBranch)))) = _
        rw [hcondition.decode hc, hthen.decode ht, helse.decode he]
        rfl
  | .whileStmt s condition body =>
    have hcondition := condition.readsAs_toJson
    have hbody := readsAs_all (readsAs_mem body)
    readsAs_parts (by decide) <|
      .record ⟨hcondition.whole, hbody.whole⟩ fun n ⟨hc, hb⟩ => by
        show (do return Stmt.whileStmt s (← Decode.expr n _) (← Decode.stmts n _)) = _
        rw [hcondition.decode hc, hbody.decode hb]
        rfl
  | .forStmt s init condition update body =>
    have hinit := readsAs_all (readsAs_mem init)
    have hcondition := ReadsAs.option Encode.expr_ne_null Expr.readsAs_toJson condition
    have hupdate := Expr.readsAs_all fun e (_ : e ∈ update) => e.readsAs_toJson
    have hbody := readsAs_all (readsAs_mem body)
    readsAs_parts (by decide) <|
      .record ⟨hinit.whole, hcondition.whole, hupdate.whole, hbody.whole⟩
        fun n ⟨hi, hc, hu, hb⟩ => by
          show (do
            return Stmt.forStmt s (← Decode.stmts n _) (← nullable (Decode.expr n) _)
              (← Decode.exprs n _) (← Decode.stmts n _)) = _
          rw [hinit.decode hi, hcondition.decode hc, hupdate.decode hu, hbody.decode hb]
          rfl
  | .forEachStmt s var iterated body =>
    have hvar := var.readsAs_toJson
    have hiterated := iterated.readsAs_toJson
    have hbody := readsAs_all (readsAs_mem body)
    readsAs_parts (by decide) <|
      .record ⟨hvar.whole, hiterated.whole, hbody.whole⟩ fun n ⟨hv, hi, hb⟩ => by
        show (do
          return Stmt.forEachStmt s (← Decode.varDecl n _) (← Decode.expr n _)
            (← Decode.stmts n _)) = _
        rw [hvar.decode hv, hiterated.decode hi, hbody.decode hb]
        rfl
  | .tryStmt s resources body catches none =>
    have hresources := VarDecl.readsAs_list resources
    have hbody := readsAs_all (readsAs_mem body)
    have hcatches := CatchClause.readsAs_all (readsAs_catch catches)
    readsAs_parts (by decide) <|
      .record ⟨hresources.whole, hbody.whole, hcatches.whole, trivial⟩ fun n ⟨hr, hb, hc, _⟩ => by
        show (do
          return Stmt.tryStmt s (← Decode.varDecls n _) (← Decode.stmts n _)
            (← Decode.catchClauses n _) (← some none)) = _
        rw [hresources.decode hr, hbody.decode hb, hcatches.decode hc]
        rfl
  | .tryStmt s resources body catches (some finallyBlock) =>
    have hresources := VarDecl.readsAs_list resources
    have hbody := readsAs_all (readsAs_mem body)
    have hcatches := CatchClause.readsAs_all (readsAs_catch catches)
    have hfinally := (readsAs_all (readsAs_mem finallyBlock)).present (Json.array_ne_null _)
    readsAs_parts (by decide) <|
      .record ⟨hresources.whole, hbody.whole, hcatches.whole, hfinally.whole⟩
        fun n ⟨hr, hb, hc, hf⟩ => by
          show (do
            return Stmt.tryStmt s (← Decode.varDecls n _) (← Decode.stmts n _)
              (← Decode.catchClauses n _)
              (← nullable (Decode.stmts n) (.array (Encode.stmts finallyBlock)))) = _
          rw [hresources.decode hr, hbody.decode hb, hcatches.decode hc, hfinally.decode hf]
          rfl

theorem readsAs_mem :
    ∀ body : List Stmt, ∀ st ∈ body, ReadsAs Decode.stmt (Encode.stmt st) st
  | [], _, h => absurd h List.not_mem_nil
  | st :: _, _, .head _ => readsAs_toJson st
  | _ :: body, _, .tail _ h => readsAs_mem body _ h

theorem readsAs_catch : ∀ cs : List CatchClause, ∀ c ∈ cs,
    ReadsAs Decode.catchClause (Encode.catchClause c) c
  | [], _, h => absurd h List.not_mem_nil
  | .mk param body :: _, _, .head _ =>
    CatchClause.readsAs_of_body param (readsAs_all (readsAs_mem body))
  | _ :: cs, _, .tail _ h => readsAs_catch cs _ h

end

end Stmt

/-! ## Declarations -/

theorem MethodDecl.readsAs_toJson (m : MethodDecl) :
    ReadsAs Decode.methodDecl (Encode.methodDecl m) m :=
  have hparams := VarDecl.readsAs_list m.params
  have hreturn := ReadsAs.option Json.text_ne_null ReadsAs.text m.returnType
  have hbody := ReadsAs.option (fun b => Json.array_ne_null (Encode.stmts b))
    (fun b => Stmt.readsAs_all fun st (_ : st ∈ b) => st.readsAs_toJson) m.body
  have hspan := m.site.span.readsAs_toJson
  .record ⟨trivial, trivial, hparams.whole, hreturn.whole, hbody.whole, hspan.whole⟩
    fun n ⟨_, _, hp, hr, hb, hs⟩ => by
      show (do
        let s ← Decode.site n (.given (Encode.nodeId m.site.id)) (.given (Encode.span m.site.span))
        return MethodDecl.mk s (← textOf (.text m.name)) (← Decode.varDecls n _)
          (← nullable textOf _) (← nullable (Decode.stmts n) _)) = _
      rw [m.site.site_given hs, hparams.decode hp, hreturn.decode hr, hbody.decode hb]
      rfl

theorem MethodDecl.readsAs_list (ms : List MethodDecl) :
    ReadsAs Decode.methodDecls (Json.list Encode.methodDecl ms) ms :=
  .array (fun _ _ => rfl) fun m _ => m.readsAs_toJson

theorem Encode.classDecls_eq_map (cs : List ClassDecl) :
    Encode.classDecls cs = cs.map Encode.classDecl := by
  induction cs with
  | nil => rfl
  | cons c cs ih => rw [classDecls, ih, List.map_cons]

namespace ClassDecl

theorem readsAs_all {cs : List ClassDecl}
    (h : ∀ c ∈ cs, ReadsAs Decode.classDecl (Encode.classDecl c) c) :
    ReadsAs Decode.classDecls (.array (Encode.classDecls cs)) cs := by
  rw [Encode.classDecls_eq_map]
  exact .array (fun _ _ => rfl) h

mutual

/-- A class is read back from its JSON form. -/
theorem readsAs_toJson : ∀ c : ClassDecl, ReadsAs Decode.classDecl (Encode.classDecl c) c
  | ⟨s, name, fields, methods, nested⟩ =>
    have hfields := VarDecl.readsAs_list fields
    have hmethods := MethodDecl.readsAs_list methods
    have hnested := readsAs_all (readsAs_mem nested)
    have hspan := s.span.readsAs_toJson
    .record ⟨trivial, trivial, hfields.whole, hmethods.whole, hnested.whole, hspan.whole⟩
      fun n ⟨_, _, hf, hm, hn, hs⟩ => by
        show (do
          let s ← Decode.site n (.given (Encode.nodeId s.id)) (.given (Encode.span s.span))
          return ClassDecl.mk s (← textOf (.text name)) (← Decode.varDecls n _)
            (← Decode.methodDecls n _) (← Decode.classDecls n _)) = _
        rw [s.site_given hs, hfields.decode hf, hmethods.decode hm, hnested.decode hn]
        rfl

theorem readsAs_mem :
    ∀ cs : List ClassDecl, ∀ c ∈ cs, ReadsAs Decode.classDecl (Encode.classDecl c) c
  | [], _, h => absurd h List.not_mem_nil
  | c :: _, _, .head _ => readsAs_toJson c
  | _ :: cs, _, .tail _ h => readsAs_mem cs _ h

end

end ClassDecl

theorem CompilationUnit.readsAs_toJson (u : CompilationUnit) :
    ReadsAs Decode.compilationUnit (Encode.compilationUnit u) u :=
  have hpackage := ReadsAs.option Json.text_ne_null ReadsAs.text u.package
  have himports : ReadsAs Json.texts (Json.list Json.text u.imports) u.imports :=
    .array (fun _ _ => rfl) fun s _ => ReadsAs.text s
  have hclasses := ClassDecl.readsAs_all fun c (_ : c ∈ u.classes) => c.readsAs_toJson
  .record ⟨hpackage.whole, himports.whole, hclasses.whole⟩ fun n ⟨hp, hi, hc⟩ => by
    show (do
      return CompilationUnit.mk (← nullable textOf _) (← Json.texts n _)
        (← Decode.classDecls n _)) = _
    rw [hpackage.decode hp, himports.decode hi, hclasses.decode hc]
    rfl

theorem MethodSignature.readsAs_list (ms : List MethodSignature) :
    ReadsAs Decode.methodSignatures (Json.list Encode.methodSignature ms) ms :=
  .array (fun _ _ => rfl) fun _ _ => .record ⟨trivial, trivial, trivial⟩ fun _ _ => rfl

namespace SourceUnit

/-- A unit is read back from its JSON form, with its source text or without. -/
theorem readsAs_toJson (u : SourceUnit) : ReadsAs Decode.sourceUnit u.toJson u := by
  obtain ⟨path, source, unit, signatures⟩ := u
  have hunit := unit.readsAs_toJson
  have hsignatures := MethodSignature.readsAs_list signatures
  cases source with
  | none =>
    refine .record ⟨trivial, hunit.whole, hsignatures.whole⟩ fun n ⟨_, hu, hs⟩ => ?_
    show (do
      return SourceUnit.mk (← textOf (.text path)) (← some none) (← Decode.compilationUnit n _)
        (← Decode.methodSignatures n _)) = _
    rw [hunit.decode hu, hsignatures.decode hs]
    rfl
  | some source =>
    refine .record ⟨trivial, trivial, hunit.whole, hsignatures.whole⟩ fun n ⟨_, _, hu, hs⟩ => ?_
    show (do
      return SourceUnit.mk (← textOf (.text path)) (← nullable textOf (.text source))
        (← Decode.compilationUnit n _) (← Decode.methodSignatures n _)) = _
    rw [hunit.decode hu, hsignatures.decode hs]
    rfl

theorem ofJson?_toJson (u : SourceUnit) (file : String) (hpath : u.path ≠ "")
    (hnesting : u.toJson.nesting ≤ Json.maxNesting) : ofJson? u.toJson file = some u := by
  rw [ofJson?, u.readsAs_toJson.decode hnesting]
  exact congrArg some (if_neg hpath)

/-- A unit that has a path, and whose file nests no deeper than a file may, loads as it was saved,
whatever the file is called and on however many lines the text stands. -/
theorem load?_save (u : SourceUnit) (file : String) (hpath : u.path ≠ "")
    (hnesting : u.toJson.nesting ≤ Json.maxNesting) :
    load? u.save file = some u ∧ load? u.toJson.pretty file = some u := by
  have hwhole := u.readsAs_toJson.whole
  constructor
  · rw [load?, save, Json.parse?_compact hwhole]
    exact ofJson?_toJson u file hpath hnesting
  · rw [load?, Json.parse?_pretty hwhole]
    exact ofJson?_toJson u file hpath hnesting

/-- Texts with quotes, backslashes, control characters and letters beyond ASCII, the ends of every
range of numbers, and fields that are absent or empty. -/
def quotingUnit : SourceUnit where
  path := "src/Größe.java"
  source := some "class A \"\\\"\n\t\x01\x1f 😀"
  unit := {
    imports := ["java.io.*", ""]
    classes := [{
      site := ⟨4294967295, ⟨0, 18446744073709551615⟩⟩
      name := "A"
      fields := [⟨⟨0, {}⟩, "f", "R", some (.string ⟨0, {}⟩ "\"\\/\x08\x0c\r\x00")⟩]
      methods := [
        { site := ⟨1, {}⟩, name := "m", params := [], returnType := none, body := none },
        { site := ⟨2, {}⟩, name := "n", params := [⟨⟨3, {}⟩, "p", "R", none⟩],
          returnType := some "null"
          body := some [
            .tryStmt ⟨4, {}⟩ [] [.returnStmt ⟨5, {}⟩ none]
              [.mk ⟨⟨6, {}⟩, "e", "E", none⟩ [.breakStmt ⟨7, {}⟩]] (some []),
            .ifStmt ⟨8, {}⟩ (.unary ⟨9, {}⟩ .not (.bool ⟨10, {}⟩ false))
              [.exprStmt ⟨11, {}⟩ (.call ⟨12, {}⟩ none "close" [.int ⟨13, {}⟩ Int64.minValue])]
              none] }]
      nested := [] }] }
  signatures := [⟨"R", "close", "void"⟩]

theorem load?_save_quotingUnit :
    quotingUnit.path ≠ "" ∧ quotingUnit.toJson.nesting ≤ Json.maxNesting ∧
    load? quotingUnit.save "upload.json" = some quotingUnit ∧
    load? quotingUnit.toJson.pretty "upload.json" = some quotingUnit := by
  have hpath : quotingUnit.path ≠ "" := by decide
  have hnesting : quotingUnit.toJson.nesting ≤ Json.maxNesting := by decide +kernel
  exact ⟨hpath, hnesting, load?_save quotingUnit "upload.json" hpath hnesting⟩

end SourceUnit

end HandleLint
