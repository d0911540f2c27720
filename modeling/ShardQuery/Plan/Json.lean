import ShardQuery.Plan.Validation
import ShardQuery.Value.Json

/-!
Plans as documents. A step is an object whose `kind` says which step it is. The steps of a plan are
kept before they are read.
-/

namespace ShardQuery

namespace SortSpec

def toJson (s : SortSpec) : Json :=
  .obj [("field", .str s.field), ("descending", .bool s.descending),
    ("nulls_first", .bool s.nullsFirst)]

def ofJson? (j : Json) : Option SortSpec := do
  let fields ← Json.fieldsOf? ["field", "descending", "nulls_first"] j
  some {
    field := ← Json.required fields "field" Json.string?
    descending := ← Json.withDefault fields "descending" false Json.bool?
    nullsFirst := ← Json.withDefault fields "nulls_first" false Json.bool? }

end SortSpec

def Distribution.ofText? (s : String) : Option Distribution :=
  [Distribution.singlePartition, .allPartitions, .allShards].find? (·.text == s)

def AggregateFunc.ofText? (s : String) : Option AggregateFunc :=
  AggregateFunc.all.find? (·.text == s)

def AggregateFunc.ofJson? (j : Json) : Option AggregateFunc :=
  (Json.alternative? true j).bind ofText?

def ArithKind.ofText? (s : String) : Option ArithKind :=
  [ArithKind.additive, .multiplicative].find? (·.text == s)

def Json.ofTexts (ss : List String) : Json := .arr (ss.map .str)

def Json.ofNat (n : Nat) : Json := .int n

/-- A value or null. -/
def Json.ofOption {α : Type} (write : α → Json) : Option α → Json
  | none => .null
  | some a => write a

def ReceiveInfo.ofFields? (fields : List (String × Json)) : Option ReceiveInfo := do
  some {
    distribution := ← Json.required fields "distribution" fun j =>
      (Json.alternative? true j).bind Distribution.ofText?
    specs := ← Json.withDefault fields "sort_specs" [] (Json.list? SortSpec.ofJson?)
    primaryKey := ← Json.withDefault fields "primary_key_fields" [] (Json.list? Json.string?) }

def GroupInfo.ofFields? (fields : List (String × Json)) : Option GroupInfo := do
  some {
    grouping := ← Json.required fields "gb_column_count" Json.word64?
    names := ← Json.required fields "column_names" (Json.list? Json.string?)
    funcs := ← Json.required fields "aggregate_funcs" (Json.list? AggregateFunc.ofJson?)
    distinct := ← Json.withDefault fields "is_distinct" false Json.bool?
    removeProduced := ← Json.withDefault fields "remove_produced_result" false Json.bool?
    countMemory := ← Json.withDefault fields "count_memory" true Json.bool? }

def SelectInfo.ofFields? (fields : List (String × Json)) : Option SelectInfo := do
  some {
    rowVariable := ← Json.withDefault fields "from_var_name" "" Json.string?
    names := ← Json.withDefault fields "column_names" [] (Json.list? Json.string?)
    grouping := ← Json.withDefault fields "gb_column_count" none (Json.orNull Json.word64?)
    star := ← Json.withDefault fields "select_star" false Json.bool? }

namespace PlanStep

/-- A step's document. -/
def document (kind : String) (reg : Nat) (fields : List (String × Json)) : Json :=
  .obj (("kind", .str kind) :: ("result_reg", .ofNat reg) :: fields)

/-- The document with every field written out. -/
def toJson : PlanStep → Json
  | .const reg v => document "const" reg [("value", v.toJson)]
  | .varRef reg name => document "var_ref" reg [("name", .str name)]
  | .externalVarRef reg name id =>
    document "external_var_ref" reg [("name", .str name), ("id", .ofNat id)]
  | .field reg input name =>
    document "field_step" reg [("input", input.toJson), ("field_name", .str name)]
  | .arith reg kind args ops =>
    document "arith_op" reg
      [("kind", .str kind.text), ("args", .arr (toJsonAll args)), ("ops", .str ops)]
  | .aggregate reg func input =>
    document "aggregate" reg [("func", .str func.text), ("input", toJsonOption input)]
  | .select reg source info columns offset limit =>
    document "sfw" reg [("from", source.toJson), ("from_var_name", .str info.rowVariable),
      ("columns", .arr (toJsonAll columns)), ("column_names", .ofTexts info.names),
      ("gb_column_count", .ofOption .ofNat info.grouping), ("select_star", .bool info.star),
      ("offset", toJsonOption offset), ("limit", toJsonOption limit)]
  | .group reg input info =>
    document "group" reg [("input", input.toJson), ("gb_column_count", .ofNat info.grouping),
      ("column_names", .ofTexts info.names),
      ("aggregate_funcs", .ofTexts (info.funcs.map AggregateFunc.text)),
      ("is_distinct", .bool info.distinct), ("remove_produced_result", .bool info.removeProduced),
      ("count_memory", .bool info.countMemory)]
  | .sort reg input specs countMemory =>
    document "sort" reg [("input", input.toJson), ("sort_specs", .arr (specs.map SortSpec.toJson)),
      ("count_memory", .bool countMemory)]
  | .receive reg info =>
    document "receive" reg [("distribution", .str info.distribution.text),
      ("sort_specs", .arr (info.specs.map SortSpec.toJson)),
      ("primary_key_fields", .ofTexts info.primaryKey)]
where
  toJsonAll : List PlanStep → List Json
    | [] => []
    | s :: rest => s.toJson :: toJsonAll rest
  toJsonOption : Option PlanStep → Json
    | none => .null
    | some s => s.toJson

/-- The kinds of steps, each with its fields beside the register. -/
def kinds : List (String × List String) :=
  [("const", ["value"]),
   ("var_ref", ["name"]),
   ("external_var_ref", ["name", "id"]),
   ("field_step", ["input", "field_name"]),
   ("arith_op", ["kind", "args", "ops"]),
   ("aggregate", ["func", "input"]),
   ("sfw", ["from", "from_var_name", "columns", "column_names", "gb_column_count", "select_star",
      "offset", "limit"]),
   ("group", ["input", "gb_column_count", "column_names", "aggregate_funcs", "is_distinct",
      "remove_produced_result", "count_memory"]),
   ("sort", ["input", "sort_specs", "count_memory"]),
   ("receive", ["distribution", "sort_specs", "primary_key_fields"])]

/-- The name of a kind and its fields. Inside another step the place of a kind will do for its
name. -/
def kind? (inner : Bool) : Json → Option (String × List String)
  | .str s => kinds.find? (·.1 == s)
  | .int n => if inner && 0 ≤ n then kinds[n.toNat]? else none
  | _ => none

/-- The kind of a step and its other contents. The step is an object, or a list whose first item is
the kind. An arithmetic step has a second `kind`, for which an object has no room; so only a list
can hold one. -/
def split? : Json → Option (Json × Json)
  | .arr (kind :: items) => some (kind, .arr items)
  | .obj fields => do
    let kind ← fields.lookup "kind"
    let _ ← Json.membersOf? ["kind"] (.obj fields)
    some (kind, .obj (fields.filter (·.1 != "kind")))
  | _ => none

/-- The step of a kind and a register that the other fields of its document describe. The steps
inside it are read with `step?`. -/
def ofFields? (step? : Json → Option PlanStep) (kind : String) (reg : Nat)
    (fields : List (String × Json)) : Option PlanStep :=
  let optional (name : String) : Option (Option PlanStep) :=
    Json.withDefault fields name none (Json.orNull step?)
  match kind with
  | "const" => do
    some (.const reg (← Json.required fields "value" (Value.ofJson? true Json.maxDepth)))
  | "var_ref" => do
    some (.varRef reg (← Json.required fields "name" Json.string?))
  | "external_var_ref" => do
    some (.externalVarRef reg (← Json.required fields "name" Json.string?)
      (← Json.required fields "id" Json.word64?))
  | "field_step" => do
    some (.field reg (← Json.required fields "input" step?)
      (← Json.required fields "field_name" Json.string?))
  | "arith_op" => do
    some (.arith reg
      (← Json.required fields "kind" fun j => (Json.alternative? true j).bind ArithKind.ofText?)
      (← Json.required fields "args" (Json.list? step?))
      (← Json.required fields "ops" Json.string?))
  | "aggregate" => do
    some (.aggregate reg (← Json.required fields "func" AggregateFunc.ofJson?)
      (← optional "input"))
  | "sfw" => do
    some (.select reg (← Json.required fields "from" step?) (← SelectInfo.ofFields? fields)
      (← Json.withDefault fields "columns" [] (Json.list? step?))
      (← optional "offset") (← optional "limit"))
  | "group" => do
    some (.group reg (← Json.required fields "input" step?) (← GroupInfo.ofFields? fields))
  | "sort" => do
    some (.sort reg (← Json.required fields "input" step?)
      (← Json.required fields "sort_specs" (Json.list? SortSpec.ofJson?))
      (← Json.withDefault fields "count_memory" true Json.bool?))
  | "receive" => do
    some (.receive reg (← ReceiveInfo.ofFields? fields))
  | _ => none

/-- Reads a step with up to `depth` steps inside one another. `inner` tells whether it is inside
another step. -/
def ofJson? (inner : Bool) : Nat → Json → Option PlanStep
  | 0, _ => none
  | depth + 1, j => do
    let (kind, contents) ← split? j
    let (kind, known) ← kind? inner kind
    let fields ← Json.fieldsOf? ("result_reg" :: known) contents
    let reg ← Json.required fields "result_reg" Json.word64?
    ofFields? (ofJson? true depth) kind reg fields

end PlanStep

namespace Capacity

def toJson (c : Capacity) : Json :=
  .obj [("read_units", .ofNat c.readUnits), ("read_kb", .ofNat c.readKb),
    ("write_units", .ofNat c.writeUnits)]

def ofJson? (j : Json) : Option Capacity := do
  let fields ← Json.fieldsOf? ["read_units", "read_kb", "write_units"] j
  some {
    readUnits := ← Json.required fields "read_units" Json.word64?
    readKb := ← Json.required fields "read_kb" Json.word64?
    writeUnits := ← Json.required fields "write_units" Json.word64? }

end Capacity

namespace ExternalVar

def toJson (v : ExternalVar) : Json := .obj [("name", .str v.name), ("id", .ofNat v.id)]

def ofJson? (j : Json) : Option ExternalVar := do
  let fields ← Json.fieldsOf? ["name", "id"] j
  some {
    name := ← Json.required fields "name" Json.string?
    id := ← Json.required fields "id" Json.word64? }

end ExternalVar

namespace Plan

def toJson (p : Plan) : Json :=
  .obj [("root", p.root.toJson), ("num_registers", .ofNat p.registers),
    ("external_vars", .arr (p.externals.map ExternalVar.toJson)),
    ("shard_ids", .arr (p.shards.map .int)),
    ("compile_cost", .ofOption Capacity.toJson p.compileCost)]

def ofJson? (j : Json) : Option Plan := do
  let fields ← Json.fieldsOf?
    ["root", "num_registers", "external_vars", "shard_ids", "compile_cost"] j
  some {
    root := ← Json.required fields "root" fun j =>
      if Json.isKeepable (Json.maxDepth - 1) j then PlanStep.ofJson? false Json.maxDepth j else none
    registers := ← Json.required fields "num_registers" Json.word64?
    externals := ← Json.withDefault fields "external_vars" [] (Json.list? ExternalVar.ofJson?)
    shards := ← Json.withDefault fields "shard_ids" [] (Json.list? Json.id?)
    compileCost := ← Json.withDefault fields "compile_cost" none (Json.orNull Capacity.ofJson?) }

/-- Reads and checks a plan. -/
def decode (s : String) : Except QueryError Plan :=
  match (Json.parse? s).bind ofJson? with
  | some plan => do
    plan.validate
    return plan
  | none => .error (.protocol "undecodable plan")

end Plan
end ShardQuery
