import ShardQuery.Value.Basic

/-!
Values as they lie in memory. The buffer of a text, of bytes or of a field's name may have room to
spare, which counts as memory of the value. A copy has none.
-/

namespace ShardQuery

/-- A value and what its buffers have to spare. -/
inductive Placed where
  /-- A value whose buffers are full. -/
  | exact (v : Value)
  | text (s : String) (spare : Nat)
  | binary (bytes : Bytes) (spare : Nat)
  | array (items : List Placed)
  /-- The fields of a record, with what the buffers of their names have to spare. -/
  | map (fields : List (String × Nat × Placed))
  deriving Inhabited, Repr

namespace Placed

mutual

/-- The value itself. Stored on its own, it is a copy. -/
def value : Placed → Value
  | .exact v => v
  | .text s _ => .text s
  | .binary bytes _ => .binary bytes
  | .array items => .array (values items)
  | .map fields => .map (record fields)

def values : List Placed → List Value
  | [] => []
  | p :: rest => value p :: values rest

def record : List (String × Nat × Placed) → Record
  | [] => []
  | (name, _, p) :: rest => (name, value p) :: record rest

end

mutual

/-- Estimated memory held by a value where it lies. -/
def size : Placed → Nat
  | .exact v => v.size
  | .text s spare => 32 + (s.utf8ByteSize + spare)
  | .binary bytes spare => 32 + (bytes.length + spare)
  | .array items => 32 + sizeItems items
  | .map fields => 32 + sizeFields fields

def sizeItems : List Placed → Nat
  | [] => 0
  | p :: rest => size p + sizeItems rest

def sizeFields : List (String × Nat × Placed) → Nat
  | [] => 0
  | (name, spare, p) :: rest => name.utf8ByteSize + spare + size p + sizeFields rest

end

mutual

/-- What all buffers of a value have to spare. -/
def spare : Placed → Nat
  | .exact _ => 0
  | .text _ spare | .binary _ spare => spare
  | .array items => spareItems items
  | .map fields => spareFields fields

def spareItems : List Placed → Nat
  | [] => 0
  | p :: rest => spare p + spareItems rest

def spareFields : List (String × Nat × Placed) → Nat
  | [] => 0
  | (_, n, p) :: rest => n + spare p + spareFields rest

end

instance : Coe Value Placed := ⟨.exact⟩

/-- The items of an array. -/
def items? : Placed → Option (List Placed)
  | .exact (.array items) => some (items.map .exact)
  | .array items => some items
  | _ => none

@[simp] theorem value_exact (v : Value) : (exact v).value = v := rfl

@[simp] theorem size_exact (v : Value) : (exact v).size = v.size := rfl

@[simp] theorem spare_exact (v : Value) : (exact v).spare = 0 := rfl

mutual

/-- A value takes more where it lies than its copy takes, by what its buffers have to spare. -/
theorem size_eq : ∀ p : Placed, p.size = p.value.size + p.spare
  | .exact _ => rfl
  | .text _ _ | .binary _ _ => (Nat.add_assoc ..).symm
  | .array items => by rw [size, sizeItems_eq items, value, Value.size, spare, Nat.add_assoc]
  | .map fields => by rw [size, sizeFields_eq fields, value, Value.size, spare, Nat.add_assoc]

theorem sizeItems_eq : ∀ items : List Placed,
    sizeItems items = Value.sizeItems (values items) + spareItems items
  | [] => rfl
  | p :: rest => by
    rw [sizeItems, size_eq p, sizeItems_eq rest, values, Value.sizeItems, spareItems]
    omega

theorem sizeFields_eq : ∀ fields : List (String × Nat × Placed),
    sizeFields fields = Value.sizeFields (record fields) + spareFields fields
  | [] => rfl
  | (name, n, p) :: rest => by
    rw [sizeFields, size_eq p, sizeFields_eq rest, record, Value.sizeFields, spareFields]
    omega

end

theorem values_eq_map (ps : List Placed) : values ps = ps.map value := by
  induction ps with
  | nil => rfl
  | cons p ps ih => rw [values, ih, List.map_cons]

/-- What has items is an array of them. -/
theorem value_of_items? {p : Placed} {items : List Placed} (h : p.items? = some items) :
    p.value = .array (items.map value) := by
  cases p with
  | array items' =>
    cases h
    exact congrArg Value.array (values_eq_map items)
  | exact v =>
    cases v with
    | array vs =>
      cases h
      rw [value_exact, List.map_map]
      exact congrArg Value.array (List.map_id vs).symm
    | _ => cases h
  | text | binary | map => cases h

/-- What has no items is no array. -/
theorem value_ne_array {p : Placed} (h : p.items? = none) (vs : List Value) : p.value ≠ .array vs := by
  intro hv
  cases p with
  | exact v =>
    obtain rfl : v = .array vs := hv
    cases h
  | array items => cases h
  | text | binary | map => cases hv

end Placed
end ShardQuery
