import ShardQuery.Operator.Control
import ShardQuery.Value.Order

/-!
Sort steps: the whole input is read, sorted and handed on. The memory of a row is given back with
the row.
-/

namespace ShardQuery

structure Sorting where
  reg : Nat
  /-- The register of the input rows. -/
  inputReg : Nat
  specs : List SortSpec
  countMemory : Bool
  /-- The rows read so far, the latest first. -/
  arrived : List Value := []
  /-- The rows still to be handed on, once the input has ended. -/
  sorted : Option (List Value) := none
  /-- Bytes charged for the rows that are held. -/
  charged : Nat := 0
  deriving Inhabited, Repr

namespace Sorting

/-- Bytes charged for a row. -/
def cost (s : Sorting) (row : Value) : Nat := if s.countMemory then row.size else 0

/-- Charges for a row. -/
def chargeRow (s : Sorting) (row : Value) (c : Control) : Option QueryError × Control :=
  if s.countMemory then c.charge (s.cost row) else (none, c)

/-- Takes in the current input row. -/
def consume (s : Sorting) (c : Control) : Step Sorting :=
  let row := c.reg s.inputReg
  match s.chargeRow row c with
  | (some e, c) => ⟨.fail e, s, c⟩
  | (none, c) =>
    ⟨.more, { s with arrived := row :: s.arrived, charged := s.charged + s.cost row }, c⟩

/-- Sorts what has arrived. -/
def endInput (s : Sorting) (c : Control) : Step Sorting :=
  ⟨.more, { s with arrived := [], sorted := some (sortRows s.specs s.arrived.reverse) }, c⟩

/-- Takes in what the input did. -/
def onInput (s : Sorting) (signal : Signal) (c : Control) : Step Sorting :=
  match signal with
  | .row => s.consume c
  | .dry => if c.needsContinuation then ⟨.dry, s, c⟩ else s.endInput c
  | other => ⟨other, s, c⟩

/-- Hands on the next of the sorted rows. -/
def emitNext (s : Sorting) (rows : List Value) (c : Control) : Step Sorting :=
  match rows with
  | [] => ⟨.dry, s, c⟩
  | row :: rest =>
    ⟨.row, { s with sorted := some rest, charged := s.charged - s.cost row },
      (c.release (s.cost row)).setReg s.reg row⟩

/-- The rows that are held. -/
def rows (s : Sorting) : List Value := s.arrived ++ s.sorted.getD []

/-- Gives back all memory. -/
def close (s : Sorting) (c : Control) : Sorting × Control :=
  ({ s with arrived := [], sorted := s.sorted.map fun _ => [], charged := 0 },
    c.release s.charged)

/-- The part that a sort step has in the bound on the steps of a query. -/
def work (s : Sorting) : Nat := s.rows.length + if s.sorted.isNone then 1 else 0

end Sorting
end ShardQuery
