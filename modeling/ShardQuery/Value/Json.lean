import ShardQuery.Text.Calendar
import ShardQuery.Text.Json.Reader
import ShardQuery.Value.Basic

/-!
Values as documents: the type's name beside the content.
-/

namespace ShardQuery
namespace Value

/-- A document with a type and a content. -/
def tagged (type : String) (content : Json) : Json :=
  .obj [("type", .str type), ("value", content)]

mutual

def toJson : Value → Json
  | .empty => .obj [("type", .str "empty")]
  | .jsonNull => .obj [("type", .str "json_null")]
  | .null => .obj [("type", .str "null")]
  | .boolean b => tagged "boolean" (.bool b)
  | .integer n => tagged "integer" (.int n.toInt)
  | .long n => tagged "long" (.int n.toInt)
  | .double d => tagged "double" (.float d)
  | .text s => tagged "string" (.str s)
  | .binary bytes => tagged "binary" (.arr (bytes.map fun b => .int b.toNat))
  | .timestamp t => tagged "timestamp" (.str t.text)
  | .array items => tagged "array" (.arr (toJsonItems items))
  | .map fields => tagged "map" (.obj [("fields", .arr (toJsonFields fields))])

def toJsonItems : List Value → List Json
  | [] => []
  | v :: rest => v.toJson :: toJsonItems rest

/-- Each field as a pair of its name and its value. -/
def toJsonFields : List (String × Value) → List Json
  | [] => []
  | (name, v) :: rest => .arr [.str name, v.toJson] :: toJsonFields rest

end

/-- A number with or without a fraction. -/
def double? : Json → Option Double
  | .int n => some (Double.ofSignBits (n < 0) (Double.nearestBits n.natAbs 1))
  | .float d => some d
  | _ => none

/-- A value without parts. The three kinds of nothing have no content, or a null. -/
def scalar? (type : String) (content : Option Json) : Option Value :=
  match type, content with
  | "empty", none | "empty", some .null => some .empty
  | "json_null", none | "json_null", some .null => some .jsonNull
  | "null", none | "null", some .null => some .null
  | "boolean", some (.bool b) => some (.boolean b)
  | "integer", some j => (Json.int? (-2 ^ 31) (2 ^ 31) j).map fun n => .integer (Int32.ofInt n)
  | "long", some j => (Json.int? (-2 ^ 63) (2 ^ 63) j).map fun n => .long (Int64.ofInt n)
  | "double", some j => (double? j).map .double
  | "string", some (.str s) => some (.text s)
  | "binary", some j => (Json.list? (Json.nat? 256) j).map fun bs => .binary (bs.map UInt8.ofNat)
  | "timestamp", some (.str s) => (Timestamp.parse? s).map .timestamp
  | _, _ => none

/-- The type and the content of a value. They are fields of an object or, in this order, the items
of a list. -/
def parts? : Json → Option (List (String × Json))
  | .arr [type, content] => some [("type", type), ("value", content)]
  | j => Json.membersOf? ["type", "value"] j

/-- The name of a value's type. -/
def type? (kept : Bool) (levels : Nat) : Json → Option String
  | .obj fields => if levels = 0 then none else Json.alternative? kept (.obj fields)
  | j => Json.alternative? kept j

/-- Whether the content comes before the type, so that it has to be kept until the type is known. -/
def contentFirst (fields : List (String × Json)) : Bool :=
  (fields.find? fun f => f.1 == "type" || f.1 == "value").any (·.1 == "value")

/-- The type and the content of a value, and whether the content was kept: as a part of something
kept, or because it comes first. -/
def opened? (kept : Bool) (levels : Nat) (j : Json) : Option (String × Option Json × Bool) := do
  let fields ← parts? j
  let type ← Json.required fields "type" (type? kept levels)
  let content := fields.lookup "value"
  if contentFirst fields && !kept then
    if content.all (Json.isKeepable levels) then some (type, content, true) else none
  else some (type, content, kept)

mutual

/-- Reads a value with up to the given number of levels. `kept` tells whether it is a part that was
kept. -/
def ofJson? (kept : Bool) : Nat → Json → Option Value
  | 0, _ => none
  | levels + 1, j => do
    let (type, content, kept) ← opened? kept levels j
    match type with
    | "array" => (content.bind (items? kept levels)).map .array
    | "map" => (content.bind (fields? kept levels)).map .map
    | "binary" => if levels = 0 then none else scalar? "binary" content
    | type => scalar? type content

/-- The items of an array. -/
def items? (kept : Bool) : Nat → Json → Option (List Value)
  | levels + 1, j => Json.list? (ofJson? kept levels) j
  | 0, _ => none

/-- The fields of a record. They are the only field of their document. -/
def fields? (kept : Bool) : Nat → Json → Option Record
  | levels + 2, j => do
    let inner ← Json.fieldsOf? ["fields"] j
    Json.required inner "fields" (Json.list? (pair? kept levels))
  | _, _ => none

/-- A field's name and value. -/
def pair? (kept : Bool) : Nat → Json → Option (String × Value)
  | levels + 1, .arr [.str name, v] => (ofJson? kept levels v).map (name, ·)
  | _, _ => none

end

/-- The value that a text describes. -/
def decode? (s : String) : Option Value := (Json.parse? s).bind (ofJson? false Json.maxDepth)

end Value
end ShardQuery
