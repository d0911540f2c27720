import ShardQuery.Plan.Json
import ShardQuery.Proofs.Value.Json

/-!
Plans can be read back from their texts, except for those with an arithmetic step: its document has
two fields of one name.
-/

namespace ShardQuery

/-! ## Parts of documents -/

namespace Json

theorem depth_le_of_mem (name : String) (j : Json) {fields : List (String × Json)} {levels : Nat}
    (h : (name, j) ∈ fields) (hd : depthFields fields ≤ levels) : j.depth ≤ levels := by
  induction fields with
  | nil => cases h
  | cons f rest ih =>
    obtain ⟨hf, hrest⟩ := Nat.max_le.1 hd
    cases h with
    | head => exact hf
    | tail _ h => exact ih h hrest

theorem word64?_ofNat {n : Nat} (h : n < 2 ^ 64) : word64? (ofNat n) = some n := by
  have hn : (n : Int) < 18446744073709551616 := by omega
  simp [ofNat, word64?, nat?, hn]

theorem printable_ofNat {n : Nat} (h : n < 2 ^ 64) : (ofNat n).Printable := by
  refine ⟨?_, ?_⟩ <;> omega

theorem printable_ofTexts (ss : List String) : (ofTexts ss).Printable :=
  printableItems_map fun _ _ => trivial

theorem printable_ofOption {α : Type} {write : α → Json} {o : Option α}
    (h : ∀ a ∈ o, (write a).Printable) : (ofOption write o).Printable := by
  cases o with
  | none => trivial
  | some a => exact h a rfl

theorem id?_int {n : Int} (h : -2 ^ 31 ≤ n ∧ n < 2 ^ 31) : id? (.int n) = some n := by
  simpa [id?, int?] using h

theorem list?_ofTexts (ss : List String) : list? string? (ofTexts ss) = some ss :=
  list?_map fun _ _ => rfl

/-- Null is told from what is written in its place. -/
theorem orNull_ofOption {α : Type} {read : Json → Option α} {write : α → Json} {o : Option α}
    (hnull : ∀ a, write a ≠ .null) (h : ∀ a ∈ o, read (write a) = some a) :
    orNull read (ofOption write o) = some o := by
  cases o with
  | none => rfl
  | some a =>
    rw [ofOption, orNull, h a rfl, Option.map_some]
    exact hnull a

end Json

theorem SortSpec.ofJson?_toJson (s : SortSpec) : ofJson? s.toJson = some s := rfl

theorem Distribution.ofText?_text (d : Distribution) : ofText? d.text = some d := by
  cases d <;> rfl

theorem AggregateFunc.ofJson?_text (f : AggregateFunc) : ofJson? (.str f.text) = some f := by
  cases f <;> rfl

theorem list?_specs (specs : List SortSpec) :
    Json.list? SortSpec.ofJson? (.arr (specs.map SortSpec.toJson)) = some specs :=
  Json.list?_map fun s _ => s.ofJson?_toJson

theorem printable_specs (specs : List SortSpec) :
    Json.PrintableItems (specs.map SortSpec.toJson) :=
  Json.printableItems_map fun _ _ => ⟨trivial, trivial, trivial, trivial⟩

namespace PlanStep

/-- Whether there is an arithmetic step in the plan. -/
def calculates : PlanStep → Bool
  | .arith .. => true
  | .field _ input _ | .group _ input _ | .sort _ input _ _ => input.calculates
  | .aggregate _ _ input => optionCalculates input
  | .select _ source _ columns offset limit =>
    source.calculates || anyCalculates columns || optionCalculates offset || optionCalculates limit
  | _ => false
where
  anyCalculates : List PlanStep → Bool
    | [] => false
    | s :: rest => s.calculates || anyCalculates rest
  optionCalculates : Option PlanStep → Bool
    | none => false
    | some s => s.calculates

/-- The numbers in the plan fit 64 bits, and its constants are legible. -/
def Legible : PlanStep → Prop
  | .const reg v => reg < 2 ^ 64 ∧ v.Legible
  | .varRef reg _ | .receive reg _ => reg < 2 ^ 64
  | .externalVarRef reg _ id => reg < 2 ^ 64 ∧ id < 2 ^ 64
  | .field reg input _ | .sort reg input _ _ => reg < 2 ^ 64 ∧ input.Legible
  | .arith reg _ args _ => reg < 2 ^ 64 ∧ AllLegible args
  | .aggregate reg _ input => reg < 2 ^ 64 ∧ OptionLegible input
  | .select reg source info columns offset limit =>
    reg < 2 ^ 64 ∧ source.Legible ∧ (∀ n ∈ info.grouping, n < 2 ^ 64) ∧ AllLegible columns ∧
      OptionLegible offset ∧ OptionLegible limit
  | .group reg input info => reg < 2 ^ 64 ∧ input.Legible ∧ info.grouping < 2 ^ 64
where
  AllLegible : List PlanStep → Prop
    | [] => True
    | s :: rest => s.Legible ∧ AllLegible rest
  OptionLegible : Option PlanStep → Prop
    | none => True
    | some s => s.Legible

/-! ## Reading -/

section
variable {inner : Bool} {depth reg : Nat}

/-- A document in which the fields of its kind come once is read field by field. -/
theorem ofJson?_document {kind : String} {fields : List (String × Json)} (known : List String)
    (hsplit : split? (document kind reg fields) =
      some (.str kind, .obj (("result_reg", .ofNat reg) :: fields)))
    (hkind : kind? inner (.str kind) = some (kind, known))
    (hfields : Json.fieldsOf? ("result_reg" :: known)
      (.obj (("result_reg", .ofNat reg) :: fields)) = some (("result_reg", .ofNat reg) :: fields))
    (hreg : reg < 2 ^ 64) :
    ofJson? inner (depth + 1) (document kind reg fields) =
      ofFields? (ofJson? true depth) kind reg (("result_reg", .ofNat reg) :: fields) := by
  have hrequired : Json.required (("result_reg", .ofNat reg) :: fields) "result_reg" Json.word64? =
      some reg := by
    rw [Json.required, List.lookup_cons_self, Option.bind_some, Json.word64?_ofNat hreg]
  rw [ofJson?, hsplit, Option.bind_eq_bind, Option.bind_some]
  dsimp only
  rw [hkind, Option.bind_eq_bind, Option.bind_some]
  dsimp only
  rw [hfields, Option.bind_eq_bind, Option.bind_some, hrequired, Option.bind_eq_bind,
    Option.bind_some]

end

/-! ### The kinds -/

section
variable {step? : Json → Option PlanStep} {reg : Nat} {r x y z u v w : Json} {name : String}
  {flag flag' flag'' : Bool}

theorem ofFields?_const : ofFields? step? "const" reg [("result_reg", r), ("value", x)] =
    (Value.ofJson? true Json.maxDepth x).map (.const reg) := by
  change (Value.ofJson? true Json.maxDepth x).bind _ = _
  exact (Option.map_eq_bind ..).symm

theorem ofFields?_externalVarRef :
    ofFields? step? "external_var_ref" reg [("result_reg", r), ("name", .str name), ("id", x)] =
      (Json.word64? x).bind fun id => some (.externalVarRef reg name id) := rfl

theorem ofFields?_field :
    ofFields? step? "field_step" reg
        [("result_reg", r), ("input", x), ("field_name", .str name)] =
      (step? x).bind fun input => some (.field reg input name) := rfl

theorem ofFields?_aggregate :
    ofFields? step? "aggregate" reg [("result_reg", r), ("func", x), ("input", y)] =
      (AggregateFunc.ofJson? x).bind fun func =>
        (Json.orNull step? y).bind fun input => some (.aggregate reg func input) := rfl

theorem ofFields?_select :
    ofFields? step? "sfw" reg
        [("result_reg", r), ("from", x), ("from_var_name", .str name), ("columns", y),
          ("column_names", z), ("gb_column_count", u), ("select_star", .bool flag),
          ("offset", v), ("limit", w)] =
      (step? x).bind fun source =>
        ((Json.list? Json.string? z).bind fun names =>
          (Json.orNull Json.word64? u).bind fun grouping =>
            some (SelectInfo.mk name names grouping flag)).bind fun info =>
          (Json.list? step? y).bind fun columns =>
            (Json.orNull step? v).bind fun offset =>
              (Json.orNull step? w).bind fun limit =>
                some (.select reg source info columns offset limit) := rfl

theorem ofFields?_group :
    ofFields? step? "group" reg
        [("result_reg", r), ("input", x), ("gb_column_count", y), ("column_names", z),
          ("aggregate_funcs", u), ("is_distinct", .bool flag),
          ("remove_produced_result", .bool flag'), ("count_memory", .bool flag'')] =
      (step? x).bind fun input =>
        ((Json.word64? y).bind fun grouping =>
          (Json.list? Json.string? z).bind fun names =>
            (Json.list? AggregateFunc.ofJson? u).bind fun funcs =>
              some (GroupInfo.mk grouping names funcs flag flag' flag'')).bind fun info =>
          some (.group reg input info) := rfl

theorem ofFields?_sort :
    ofFields? step? "sort" reg
        [("result_reg", r), ("input", x), ("sort_specs", y), ("count_memory", .bool flag)] =
      (step? x).bind fun input =>
        (Json.list? SortSpec.ofJson? y).bind fun specs => some (.sort reg input specs flag) := rfl

theorem ofFields?_receive {d : Distribution} :
    ofFields? step? "receive" reg
        [("result_reg", r), ("distribution", .str d.text), ("sort_specs", x),
          ("primary_key_fields", y)] =
      ((Distribution.ofText? d.text).bind fun d =>
        (Json.list? SortSpec.ofJson? x).bind fun specs =>
          (Json.list? Json.string? y).bind fun key => some (ReceiveInfo.mk d specs key)).bind
        fun info => some (.receive reg info) := rfl

end

theorem toJson_ne_null (s : PlanStep) : s.toJson ≠ .null := by
  cases s <;> exact Json.noConfusion

mutual

/-- A step can be read back from its document, unless something is calculated in it. -/
theorem ofJson?_toJson : ∀ (s : PlanStep) {inner : Bool} {depth : Nat}, s.Legible →
    s.toJson.depth ≤ depth → depth ≤ Json.maxDepth →
    ofJson? inner depth s.toJson = if s.calculates then none else some s
  | .const reg v, _, _, h, hd, hmax => by
    obtain ⟨below, rfl, hfields⟩ := Json.exists_below_obj hd
    have hv := Json.depth_le_of_mem "value" v.toJson (by simp) hfields
    rw [toJson, ofJson?_document ["value"] rfl rfl rfl h.1, ofFields?_const,
      Value.ofJson?_toJson v h.2 (hv.trans (Nat.le_of_succ_le hmax))]
    rfl
  | .varRef reg name, _, _, h, hd, _ => by
    obtain ⟨below, rfl, -⟩ := Json.exists_below_obj hd
    rw [toJson, ofJson?_document ["name"] rfl rfl rfl h]
    rfl
  | .externalVarRef reg name id, _, _, h, hd, _ => by
    obtain ⟨below, rfl, -⟩ := Json.exists_below_obj hd
    rw [toJson, ofJson?_document ["name", "id"] rfl rfl rfl h.1, ofFields?_externalVarRef,
      Json.word64?_ofNat h.2]
    rfl
  | .field reg input name, _, _, h, hd, hmax => by
    obtain ⟨below, rfl, hfields⟩ := Json.exists_below_obj hd
    have hinput := Json.depth_le_of_mem "input" input.toJson (by simp) hfields
    rw [toJson, ofJson?_document ["input", "field_name"] rfl rfl rfl h.1, ofFields?_field,
      ofJson?_toJson input h.2 hinput (Nat.le_of_succ_le hmax), calculates]
    split <;> rfl
  | .arith reg kind args ops, _, _, _, hd, _ => by
    obtain ⟨below, rfl, -⟩ := Json.exists_below_obj hd
    rw [toJson, ofJson?]
    rfl
  | .aggregate reg func input, _, _, h, hd, hmax => by
    obtain ⟨below, rfl, hfields⟩ := Json.exists_below_obj hd
    have hinput := Json.depth_le_of_mem "input" (toJson.toJsonOption input) (by simp) hfields
    rw [toJson, ofJson?_document ["func", "input"] rfl rfl rfl h.1, ofFields?_aggregate,
      AggregateFunc.ofJson?_text, Option.bind_some,
      orNull_toJsonOption input h.2 hinput (Nat.le_of_succ_le hmax), calculates]
    split <;> rfl
  | .select reg source info columns offset limit, _, _, h, hd, hmax => by
    obtain ⟨below, rfl, hfields⟩ := Json.exists_below_obj hd
    obtain ⟨hreg, hs, hg, hcs, ho, hl⟩ := h
    have hle := Nat.le_of_succ_le hmax
    have hsource := Json.depth_le_of_mem "from" source.toJson (by simp) hfields
    have hcolumns :=
      Json.depth_le_of_mem "columns" (.arr (toJson.toJsonAll columns)) (by simp) hfields
    have hoffset := Json.depth_le_of_mem "offset" (toJson.toJsonOption offset) (by simp) hfields
    have hlimit := Json.depth_le_of_mem "limit" (toJson.toJsonOption limit) (by simp) hfields
    have hgrouping : Json.orNull Json.word64? (.ofOption .ofNat info.grouping) =
        some info.grouping :=
      Json.orNull_ofOption (fun _ => Json.noConfusion) fun n hn => Json.word64?_ofNat (hg n hn)
    rw [toJson, ofJson?_document ["from", "from_var_name", "columns", "column_names",
      "gb_column_count", "select_star", "offset", "limit"] rfl rfl rfl hreg, ofFields?_select,
      ofJson?_toJson source hs hsource hle, Json.list?_ofTexts, hgrouping,
      list?_toJsonAll columns hcs (Nat.le_of_succ_le hcolumns) hle,
      orNull_toJsonOption offset ho hoffset hle, orNull_toJsonOption limit hl hlimit hle,
      calculates]
    cases source.calculates <;> cases calculates.anyCalculates columns <;>
      cases calculates.optionCalculates offset <;> cases calculates.optionCalculates limit <;> rfl
  | .group reg input info, _, _, h, hd, hmax => by
    obtain ⟨below, rfl, hfields⟩ := Json.exists_below_obj hd
    obtain ⟨hreg, hi, hg⟩ := h
    have hinput := Json.depth_le_of_mem "input" input.toJson (by simp) hfields
    have hfuncs : Json.list? AggregateFunc.ofJson? (.ofTexts (info.funcs.map AggregateFunc.text)) =
        some info.funcs := by
      rw [Json.ofTexts, List.map_map]
      exact Json.list?_map fun f _ => f.ofJson?_text
    rw [toJson, ofJson?_document ["input", "gb_column_count", "column_names", "aggregate_funcs",
      "is_distinct", "remove_produced_result", "count_memory"] rfl rfl rfl hreg, ofFields?_group,
      ofJson?_toJson input hi hinput (Nat.le_of_succ_le hmax), Json.word64?_ofNat hg,
      Json.list?_ofTexts, hfuncs, calculates]
    split <;> rfl
  | .sort reg input specs countMemory, _, _, h, hd, hmax => by
    obtain ⟨below, rfl, hfields⟩ := Json.exists_below_obj hd
    have hinput := Json.depth_le_of_mem "input" input.toJson (by simp) hfields
    rw [toJson, ofJson?_document ["input", "sort_specs", "count_memory"] rfl rfl rfl h.1,
      ofFields?_sort, ofJson?_toJson input h.2 hinput (Nat.le_of_succ_le hmax), list?_specs,
      calculates]
    split <;> rfl
  | .receive reg info, _, _, h, hd, _ => by
    obtain ⟨below, rfl, -⟩ := Json.exists_below_obj hd
    rw [toJson, ofJson?_document ["distribution", "sort_specs", "primary_key_fields"] rfl rfl rfl h,
      ofFields?_receive, Distribution.ofText?_text, list?_specs, Json.list?_ofTexts]
    rfl

theorem list?_toJsonAll : ∀ (steps : List PlanStep) {depth : Nat}, Legible.AllLegible steps →
    Json.depthItems (toJson.toJsonAll steps) ≤ depth → depth ≤ Json.maxDepth →
    Json.list? (ofJson? true depth) (.arr (toJson.toJsonAll steps)) =
      if calculates.anyCalculates steps then none else some steps
  | [], _, _, _, _ => rfl
  | s :: rest, depth, h, hd, hmax => by
    obtain ⟨hs, hrest⟩ := Nat.max_le.1 hd
    have hrest : (toJson.toJsonAll rest).mapM (ofJson? true depth) = _ :=
      list?_toJsonAll rest h.2 hrest hmax
    rw [toJson.toJsonAll, Json.list?, List.mapM_cons, ofJson?_toJson s h.1 hs hmax, hrest,
      calculates.anyCalculates]
    cases s.calculates <;> cases calculates.anyCalculates rest <;> rfl

theorem orNull_toJsonOption : ∀ (input : Option PlanStep) {depth : Nat},
    Legible.OptionLegible input → (toJson.toJsonOption input).depth ≤ depth →
    depth ≤ Json.maxDepth →
    Json.orNull (ofJson? true depth) (toJson.toJsonOption input) =
      if calculates.optionCalculates input then none else some input
  | none, _, _, _, _ => rfl
  | some s, _, h, hd, hmax => by
    rw [toJson.toJsonOption, Json.orNull, ofJson?_toJson s h hd hmax,
      calculates.optionCalculates]
    · split <;> rfl
    · exact s.toJson_ne_null

end

/-! ## Writing -/

theorem printable_document {kind : String} {reg : Nat} {fields : List (String × Json)}
    (hreg : reg < 2 ^ 64) (h : Json.PrintableFields fields) :
    (document kind reg fields).Printable :=
  ⟨trivial, Json.printable_ofNat hreg, h⟩

mutual

theorem printable_toJson : ∀ s : PlanStep, s.Legible → s.toJson.Printable
  | .const _ v, h => printable_document h.1 ⟨Value.printable_toJson v h.2, trivial⟩
  | .varRef .., h => printable_document h ⟨trivial, trivial⟩
  | .externalVarRef .., h =>
    printable_document h.1 ⟨trivial, Json.printable_ofNat h.2, trivial⟩
  | .field _ input _, h => printable_document h.1 ⟨printable_toJson input h.2, trivial, trivial⟩
  | .arith _ _ args _, h =>
    printable_document h.1 ⟨trivial, printable_toJsonAll args h.2, trivial, trivial⟩
  | .aggregate _ _ input, h =>
    printable_document h.1 ⟨trivial, printable_toJsonOption input h.2, trivial⟩
  | .select _ source info columns offset limit, ⟨hreg, hs, hg, hcs, ho, hl⟩ =>
    printable_document hreg ⟨printable_toJson source hs, trivial, printable_toJsonAll columns hcs,
      Json.printable_ofTexts info.names,
      Json.printable_ofOption fun n hn => Json.printable_ofNat (hg n hn), trivial,
      printable_toJsonOption offset ho, printable_toJsonOption limit hl, trivial⟩
  | .group _ input _, ⟨hreg, hi, hg⟩ =>
    printable_document hreg ⟨printable_toJson input hi, Json.printable_ofNat hg,
      Json.printable_ofTexts _, Json.printable_ofTexts _, trivial, trivial, trivial, trivial⟩
  | .sort _ input specs _, h =>
    printable_document h.1 ⟨printable_toJson input h.2, printable_specs specs, trivial, trivial⟩
  | .receive _ info, h =>
    printable_document h ⟨trivial, printable_specs info.specs,
      Json.printable_ofTexts info.primaryKey, trivial⟩

theorem printable_toJsonAll : ∀ steps : List PlanStep, Legible.AllLegible steps →
    Json.PrintableItems (toJson.toJsonAll steps)
  | [], _ => trivial
  | s :: rest, h => ⟨printable_toJson s h.1, printable_toJsonAll rest h.2⟩

theorem printable_toJsonOption : ∀ input : Option PlanStep, Legible.OptionLegible input →
    (toJson.toJsonOption input).Printable
  | none, _ => trivial
  | some s, h => printable_toJson s h

end

end PlanStep

/-! ## Plans -/

/-- The counts fit 64 bits. -/
structure Capacity.Legible (c : Capacity) : Prop where
  readUnits : c.readUnits < 2 ^ 64
  readKb : c.readKb < 2 ^ 64
  writeUnits : c.writeUnits < 2 ^ 64

theorem Capacity.ofJson?_toJson {c : Capacity} (h : c.Legible) : ofJson? c.toJson = some c := by
  have hread (x y z : Json) :
      ofJson? (.obj [("read_units", x), ("read_kb", y), ("write_units", z)]) =
        (Json.word64? x).bind fun units => (Json.word64? y).bind fun kb =>
          (Json.word64? z).bind fun written => some ⟨units, kb, written⟩ := rfl
  rw [toJson, hread, Json.word64?_ofNat h.readUnits, Json.word64?_ofNat h.readKb,
    Json.word64?_ofNat h.writeUnits]
  rfl

theorem Capacity.printable_toJson {c : Capacity} (h : c.Legible) : c.toJson.Printable :=
  ⟨Json.printable_ofNat h.readUnits, Json.printable_ofNat h.readKb,
    Json.printable_ofNat h.writeUnits, trivial⟩

theorem ExternalVar.ofJson?_toJson {v : ExternalVar} (h : v.id < 2 ^ 64) :
    ofJson? v.toJson = some v := by
  have hread (name : String) (x : Json) : ofJson? (.obj [("name", .str name), ("id", x)]) =
      (Json.word64? x).bind fun id => some ⟨name, id⟩ := rfl
  rw [toJson, hread, Json.word64?_ofNat h]
  rfl

namespace Plan

/-- The numbers fit the words that hold them, and the constants are legible. -/
structure Legible (p : Plan) : Prop where
  root : p.root.Legible
  registers : p.registers < 2 ^ 64
  externals : ∀ v ∈ p.externals, v.id < 2 ^ 64
  shards : ∀ n ∈ p.shards, -2 ^ 31 ≤ n ∧ n < 2 ^ 31
  compileCost : ∀ c ∈ p.compileCost, c.Legible

variable {p : Plan}

theorem printable_toJson (h : p.Legible) : p.toJson.Printable :=
  ⟨p.root.printable_toJson h.root, Json.printable_ofNat h.registers,
    Json.printableItems_map fun v hv => ⟨trivial, Json.printable_ofNat (h.externals v hv), trivial⟩,
    Json.printableItems_map fun n hn => by
      have := h.shards n hn
      refine ⟨?_, ?_⟩ <;> omega,
    Json.printable_ofOption fun c hc => Capacity.printable_toJson (h.compileCost c hc), trivial⟩

theorem ofJson?_obj {root registers externals shards cost : Json} :
    ofJson? (.obj [("root", root), ("num_registers", registers), ("external_vars", externals),
        ("shard_ids", shards), ("compile_cost", cost)]) =
      (if Json.isKeepable (Json.maxDepth - 1) root then PlanStep.ofJson? false Json.maxDepth root
        else none).bind fun root =>
      (Json.word64? registers).bind fun registers =>
      (Json.list? ExternalVar.ofJson? externals).bind fun externals =>
      (Json.list? Json.id? shards).bind fun shards =>
      (Json.orNull Capacity.ofJson? cost).bind fun cost =>
        some ⟨root, registers, externals, shards, cost⟩ := rfl

/-- A plan can be read back from its document, unless something is calculated in it. -/
theorem ofJson?_toJson (h : p.Legible) (hd : p.toJson.depth ≤ Json.maxDepth) :
    ofJson? p.toJson = if p.root.calculates then none else some p := by
  obtain ⟨below, hbelow, hfields⟩ := Json.exists_below_obj hd
  have hroot := Json.depth_le_of_mem "root" p.root.toJson (by simp) hfields
  have hkeep : Json.isKeepable (Json.maxDepth - 1) p.root.toJson = true :=
    Json.isKeepable_of_depth _ (p.root.printable_toJson h.root) (by omega)
  have hread : PlanStep.ofJson? false Json.maxDepth p.root.toJson = _ :=
    p.root.ofJson?_toJson h.root (by omega) (Nat.le_refl _)
  have hexternals : Json.list? ExternalVar.ofJson? (.arr (p.externals.map ExternalVar.toJson)) =
      some p.externals :=
    Json.list?_map fun v hv => ExternalVar.ofJson?_toJson (h.externals v hv)
  have hshards : Json.list? Json.id? (.arr (p.shards.map .int)) = some p.shards :=
    Json.list?_map fun n hn => Json.id?_int (h.shards n hn)
  have hcost : Json.orNull Capacity.ofJson? (.ofOption Capacity.toJson p.compileCost) =
      some p.compileCost :=
    Json.orNull_ofOption (fun _ => Json.noConfusion) fun c hc =>
      Capacity.ofJson?_toJson (h.compileCost c hc)
  rw [toJson, ofJson?_obj, if_pos hkeep, hread, Json.word64?_ofNat h.registers, hexternals, hshards,
    hcost]
  split <;> rfl

/-- The text of a plan that is accepted says which plan it is, unless something is calculated in it.
The text of a value says which value it is. -/
theorem decode_text (p : Plan) (v : Value) :
    (p.Legible → p.validate = .ok () → p.toJson.depth ≤ Json.maxDepth →
      decode p.toJson.text =
        if p.root.calculates then .error (.protocol "undecodable plan") else .ok p) ∧
    (v.Legible → v.toJson.depth ≤ Json.maxDepth → Value.decode? v.toJson.text = some v) := by
  refine ⟨fun h hvalid hd => ?_, Value.decode?_text⟩
  rw [decode, Json.parse?_text (printable_toJson h), Option.bind_some, ofJson?_toJson h hd]
  cases p.root.calculates with
  | true => rfl
  | false =>
    change (p.validate >>= fun _ => .ok p) = .ok p
    rw [hvalid]
    rfl

/-- A constant of many kinds, with two fields of one name. -/
def assorted : Value :=
  .map [("at", .timestamp ⟨951782400, 500000000⟩), ("no", .array [.empty, .jsonNull, .null]),
    ("no", .binary [0, 255]), ("\n", .text "\"")]

/-- Rows of two shards in order, with a constant beside each. -/
def labelled : Plan where
  root := .select 4
    (.receive 0 ⟨.allShards, [⟨"k", true, false⟩], ["id"]⟩)
    ⟨"$row", ["k", "c"], none, false⟩
    [.field 1 (.varRef 0 "$row") "k", .const 2 assorted]
    (some (.externalVarRef 3 "skip" 0)) none
  registers := 5
  externals := [⟨"skip", 0⟩]
  shards := [-1, 2]
  compileCost := some ⟨1, 2, 3⟩

theorem decode_text_labelled :
    (labelled.Legible ∧ labelled.validate = .ok () ∧ labelled.toJson.depth ≤ Json.maxDepth ∧
      assorted.Legible ∧ assorted.toJson.depth ≤ Json.maxDepth) ∧
    decode labelled.toJson.text = .ok labelled ∧
    Value.decode? assorted.toJson.text = some assorted := by
  have hvalue : assorted.Legible := by
    have htime : Timestamp.parse? (Timestamp.mk 951782400 500000000).text =
        some ⟨951782400, 500000000⟩ := by decide +kernel
    exact ⟨htime, ⟨trivial, trivial, trivial, trivial⟩, trivial, trivial, trivial⟩
  have hplan : labelled.Legible :=
    { root := ⟨by decide, Nat.two_pow_pos 64, by simp,
        ⟨⟨by decide, Nat.two_pow_pos 64⟩, ⟨by decide, hvalue⟩, trivial⟩,
        ⟨by decide, by decide⟩, trivial⟩
      registers := by decide
      externals := by simp [labelled]
      shards := by simp [labelled]
      compileCost := by
        rintro c ⟨⟩
        exact ⟨by decide, by decide, by decide⟩ }
  have hvalid : labelled.validate = .ok () := rfl
  have hdepth : labelled.toJson.depth ≤ Json.maxDepth := by decide +kernel
  have hdepth' : assorted.toJson.depth ≤ Json.maxDepth := by decide +kernel
  obtain ⟨hdecode, hdecode'⟩ := decode_text labelled assorted
  exact ⟨⟨hplan, hvalid, hdepth, hvalue, hdepth'⟩, hdecode hplan hvalid hdepth,
    hdecode' hvalue hdepth'⟩

/-- One row with one and one in it. -/
def summed : Plan where
  root := .select 4 (.receive 0 ⟨.singlePartition, [], []⟩) ⟨"$row", ["n"], none, false⟩
    [.arith 3 .additive [.const 1 (.long 1), .const 2 (.long 1)] "++"] none none
  registers := 5

/-- An arithmetic step writes its own kind under the name that the kind of the step has. -/
theorem decode_text_summed :
    summed.Legible ∧ summed.validate = .ok () ∧ summed.toJson.depth ≤ Json.maxDepth ∧
      decode summed.toJson.text = .error (.protocol "undecodable plan") := by
  have hlegible : summed.Legible :=
    { root := ⟨by decide, Nat.two_pow_pos 64, by simp,
        ⟨⟨by decide, ⟨by decide, trivial⟩, ⟨by decide, trivial⟩, trivial⟩, trivial⟩,
        trivial, trivial⟩
      registers := by decide
      externals := by simp [summed]
      shards := by simp [summed]
      compileCost := by simp [summed] }
  refine ⟨hlegible, rfl, by decide +kernel, ?_⟩
  rw [decode, Json.parse?_text (printable_toJson hlegible)]
  rfl

end Plan
end ShardQuery
