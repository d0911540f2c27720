import ShardQuery.Text.Json.Token
import ShardQuery.Text.Utf8

/-!
Documents from tokens. The parser takes one token at a time and keeps the containers that are still
open in a list.
-/

namespace ShardQuery.Json

/-- The fields of an object, the last one first. A name that is not Unicode is `none`. -/
abbrev NamedParts := List (Option String × Json)

/-- The object with these fields. -/
def ofParts (fields : NamedParts) : Json :=
  match fields.reverse.mapM fun (name, j) => name.map (·, j) with
  | none => .unreadable
  | some fields => .obj fields

/-- A container that is still open, with its finished parts in reverse. -/
inductive Frame where
  | array (items : List Json)
  /-- An object whose field `name` awaits its value. -/
  | object (fields : NamedParts) (name : Option String)
  deriving Inhabited, Repr

/-- What may come next. `outer` are the containers around it, the innermost first. -/
inductive Expecting where
  | value (outer : List Frame)
  /-- A value or the end of an array just opened. -/
  | firstItem (outer : List Frame)
  /-- A name or the end of an object just opened. -/
  | firstName (outer : List Frame)
  | nextName (fields : NamedParts) (outer : List Frame)
  | colon (fields : NamedParts) (name : Option String) (outer : List Frame)
  /-- A comma or the end of an array. -/
  | moreItems (items : List Json) (outer : List Frame)
  /-- A comma or the end of an object. -/
  | moreFields (fields : NamedParts) (outer : List Frame)
  /-- Nothing: the document is complete. -/
  | nothing (document : Json)
  deriving Inhabited, Repr

namespace Expecting

/-- Puts a finished value where it belongs. -/
def complete (j : Json) : List Frame → Expecting
  | [] => .nothing j
  | .array items :: outer => .moreItems (j :: items) outer
  | .object fields name :: outer => .moreFields ((name, j) :: fields) outer

/-- The first token of a value. -/
def start (outer : List Frame) : Token → Option Expecting
  | .scalar j => some (complete j outer)
  | .text (some s) => some (complete (.str s) outer)
  | .text none => some (complete .unreadable outer)
  | .openBracket => some (.firstItem outer)
  | .openBrace => some (.firstName outer)
  | _ => none

def step : Expecting → Token → Option Expecting
  | .value outer, t => start outer t
  | .firstItem outer, .closeBracket => some (complete (.arr []) outer)
  | .firstItem outer, t => start (.array [] :: outer) t
  | .moreItems items outer, .comma => some (.value (.array items :: outer))
  | .moreItems items outer, .closeBracket => some (complete (.arr items.reverse) outer)
  | .firstName outer, .closeBrace => some (complete (.obj []) outer)
  | .firstName outer, .text name => some (.colon [] name outer)
  | .nextName fields outer, .text name => some (.colon fields name outer)
  | .colon fields name outer, .colon => some (.value (.object fields name :: outer))
  | .moreFields fields outer, .comma => some (.nextName fields outer)
  | .moreFields fields outer, .closeBrace => some (complete (ofParts fields) outer)
  | _, _ => none

end Expecting

/-- The document that some tokens spell. -/
def ofTokens? (ts : List Token) : Option Json :=
  match ts.foldlM Expecting.step (.value []) with
  | some (.nothing j) => some j
  | _ => none

/-- The document that a text spells. -/
def parse? (s : String) : Option Json := (tokens? (s.toList.map some)).bind ofTokens?

/-- The document that some bytes spell. -/
def ofBytes? (bytes : List UInt8) : Option Json :=
  (tokens? (Text.charsOfBytes bytes)).bind ofTokens?

end ShardQuery.Json
