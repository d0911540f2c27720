import ShardQuery.Error
import ShardQuery.Text.Base64
import ShardQuery.Text.Blank
import ShardQuery.Text.Json.Reader
import ShardQuery.Text.Uuid

/-!
Tokens by which a caller names a suspended query.
-/

namespace ShardQuery

/-- A query and how many of its calls were answered so far. -/
structure Token where
  query : Uuid
  sequence : Nat
  deriving DecidableEq, Inhabited, Repr

namespace Token

def toJson (t : Token) : Json :=
  .obj [("query_id", .str t.query.text), ("sequence", .int t.sequence)]

def ofJson? (j : Json) : Option Token := do
  let fields ← Json.fieldsOf? ["query_id", "sequence"] j
  some {
    query := ← Json.required fields "query_id" fun j => (Json.string? j).bind Uuid.parse?
    sequence := ← Json.required fields "sequence" Json.word64? }

/-- The text that is handed to callers. -/
def encode (t : Token) : String := String.ofList (Base64.encode t.toJson.text.toUTF8.toList)

/-- Reads a text that `encode` wrote. Blanks around it do not matter. -/
def decode (s : String) : Except QueryError Token :=
  match Base64.decode? (Text.trim s.toList) with
  | none => .error (.invalidContinuation "not base64")
  | some bytes =>
    match (Json.ofBytes? bytes).bind ofJson? with
    | some token => .ok token
    | none => .error (.invalidContinuation "undecodable token")

end Token
end ShardQuery
