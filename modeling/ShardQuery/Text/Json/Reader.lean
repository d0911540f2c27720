import ShardQuery.Text.Json.Parser

/-!
Reading typed data out of documents. The fields of an object may come in any order and unknown ones
are passed over, but a known field must not come twice.

A part is read straight or kept first. One that is read straight is looked at only where the reader
asks for something, and only the containers that the reader enters count as levels of nesting. One
that is kept must have a value in all its parts and not be too deep; a reader of it is less strict
about the spelling of alternatives.
-/

namespace ShardQuery.Json

/-- How many containers may be nested. -/
def maxDepth : Nat := 127

/-- Whether a part can be kept: all of it has a value, and it has no more levels than given. -/
def isKeepable : Nat → Json → Bool
  | _, .unreadable => false
  | 0, .arr _ | 0, .obj _ => false
  | levels + 1, .arr items => items.all (isKeepable levels)
  | levels + 1, .obj fields => fields.all fun f => isKeepable levels f.2
  | _, _ => true

/-- The fields of an object in which each of the known names comes at most once. -/
def membersOf? (known : List String) : Json → Option (List (String × Json))
  | .obj fields =>
    if known.all (fun name => (fields.filter (·.1 == name)).length ≤ 1) then some fields else none
  | _ => none

/-- The fields of a record. It is an object, or a list of its contents in the order of the known
names, where the last ones may be left out. -/
def fieldsOf? (known : List String) : Json → Option (List (String × Json))
  | .arr items => if items.length ≤ known.length then some (known.zip items) else none
  | j => membersOf? known j

/-- A field that must be there. -/
def required {α : Type} (fields : List (String × Json)) (name : String) (read : Json → Option α) :
    Option α :=
  (fields.lookup name).bind read

/-- A field with a value to fall back on where it is absent. -/
def withDefault {α : Type} (fields : List (String × Json)) (name : String) (fallback : α)
    (read : Json → Option α) : Option α :=
  match fields.lookup name with
  | none => some fallback
  | some j => read j

/-- A value or null. -/
def orNull {α : Type} (read : Json → Option α) : Json → Option (Option α)
  | .null => some none
  | j => (read j).map some

def nat? (bound : Nat) : Json → Option Nat
  | .int n => if 0 ≤ n && n < bound then some n.toNat else none
  | _ => none

def int? (low high : Int) : Json → Option Int
  | .int n => if low ≤ n && n < high then some n else none
  | _ => none

/-- A count of 32 bits. -/
def word32? : Json → Option Nat := nat? (2 ^ 32)

/-- A count of 64 bits. -/
def word64? : Json → Option Nat := nat? (2 ^ 64)

/-- An identifier of 32 bits. -/
def id? : Json → Option Int := int? (-2 ^ 31) (2 ^ 31)

def bool? : Json → Option Bool
  | .bool b => some b
  | _ => none

def string? : Json → Option String
  | .str s => some s
  | _ => none

def list? {α : Type} (read : Json → Option α) : Json → Option (List α)
  | .arr items => items.mapM read
  | _ => none

/-- The name of an alternative that has no content: a text, or an object that gives it a null. In a
part that was kept, an empty object does as well. -/
def alternative? (kept : Bool) : Json → Option String
  | .str s => some s
  | .obj [(s, .null)] => some s
  | .obj [(s, .obj [])] => if kept then some s else none
  | _ => none

end ShardQuery.Json
