import ShardQuery.Operator.Column
import ShardQuery.Value.Tuple

/-!
Select steps: projection, grouping of rows that come sorted by the grouping columns, offset and
limit.
-/

namespace ShardQuery

/-- How many rows to leave out, and how many to let through at most. -/
structure Bounds where
  offset : Nat
  limit : Option Nat
  deriving DecidableEq, Inhabited, Repr

/-- Whether so many rows are all that the limit lets through. -/
def Bounds.reached (b : Bounds) (produced : Nat) : Bool := b.limit.any (· ≤ produced)

structure Selection where
  reg : Nat
  /-- The register of the input rows. -/
  sourceReg : Nat
  /-- The columns that are read off each row; with grouping, those that rows are grouped by. -/
  columns : List Column
  /-- The columns that rows of a group are folded into. -/
  aggregates : List Column
  names : List String
  /-- How many columns rows are grouped by, if they are. -/
  grouping : Option Nat
  star : Bool
  offset : Option Scalar
  limit : Option Scalar
  /-- The values of offset and limit, once they are known. -/
  bounds : Option Bounds := none
  skipped : Nat := 0
  produced : Nat := 0
  /-- The grouping values of the group that is being folded. -/
  current : Option (List Value) := none
  /-- Bytes charged for the group that is being folded. -/
  groupMemory : Nat := 0
  sawInput : Bool := false
  finished : Bool := false
  deriving Inhabited, Repr

namespace Selection

/-- Checks where aggregates stand. -/
def checkColumns (grouping : Option Nat) (columns : List Column) : Except QueryError Unit :=
  match grouping with
  | some gb =>
    if columns.length < gb || !(columns.drop gb).all Column.isAggregate then
      .error (.protocol "SFW non-grouping columns must be aggregate functions")
    else .ok ()
  | none =>
    if columns.any Column.isAggregate then
      .error (.protocol "aggregate function in a SFW without grouping")
    else .ok ()

/-- The value of an offset or a limit. -/
def evalBound (clause : String) : Option Scalar → Control → Except QueryError (Option Nat) × Control
  | none, c => (.ok none, c)
  | some s, c =>
    match s.run c with
    | (.error e, c) => (.error e, c)
    | (.ok false, c) =>
      (.error (.invalidArgument s!"{clause} expression produced no value"), c)
    | (.ok true, c) =>
      let v := c.reg s.reg
      match v.toLong? with
      | some n =>
        if 0 ≤ n.toInt then (.ok (some n.toInt.toNat), c)
        else (.error (notCount v), c)
      | none => (.error (notCount v), c)
where
  notCount (v : Value) : QueryError :=
    .invalidArgument s!"{clause} must be a non-negative integer, got {v.typeName}"

/-- The bounds, evaluated when the first row is asked for. -/
def evalBounds (s : Selection) (c : Control) : Except QueryError Bounds × Control :=
  match s.bounds with
  | some b => (.ok b, c)
  | none =>
    match evalBound "OFFSET" s.offset c with
    | (.error e, c) => (.error e, c)
    | (.ok offset, c) =>
      match evalBound "LIMIT" s.limit c with
      | (.error e, c) => (.error e, c)
      | (.ok limit, c) => (.ok ⟨offset.getD 0, limit⟩, c)

/-- Leaves a row out or lets it through. -/
def emit (s : Selection) (b : Bounds) (row : Value) (c : Control) : Step Selection :=
  if s.skipped < b.offset then ⟨.more, { s with skipped := s.skipped + 1 }, c⟩
  else ⟨.row, { s with produced := s.produced + 1 }, c.setReg s.reg row⟩

/-- The values of some columns, one after the other. -/
def readColumns : List Column → Control → Except QueryError (List Value) × Control
  | [], c => (.ok [], c)
  | col :: rest, c =>
    match col.read c with
    | (.error e, c) => (.error e, c)
    | (.ok v, c) =>
      match readColumns rest c with
      | (.error e, c) => (.error e, c)
      | (.ok vs, c) => (.ok (v :: vs), c)

/-- Makes a row of the current input row. -/
def project (s : Selection) (b : Bounds) (c : Control) : Step Selection :=
  if s.star then s.emit b (c.reg s.sourceReg) c
  else
    match readColumns (s.columns.take s.names.length) c with
    | (.error e, c) => ⟨.fail e, s, c⟩
    | (.ok values, c) => s.emit b (.map (Record.ofFields (s.names.zip values))) c

/-- Folds the current row into the aggregates. The growth of each is charged at once. -/
def foldRow : List Column → Nat → Control → Option QueryError × List Column × Nat × Control
  | [], memory, c => (none, [], memory, c)
  | col :: rest, memory, c =>
    match col.fold c with
    | (.error e, c) => (some e, col :: rest, memory, c)
    | (.ok (grown, col), c) =>
      match if grown = 0 then (none, c) else c.charge grown with
      | (some e, c) => (some e, col :: rest, memory, c)
      | (none, c) =>
        let (failure, rest, memory, c) := foldRow rest (memory + grown) c
        (failure, col :: rest, memory, c)

/-- The results of the aggregates that have a name, and the aggregates for the next group. -/
def takeResults :
    List String → List Column → Except QueryError (List (String × Value) × List Column)
  | name :: names, col :: cols => do
    let (v, _, col) ← col.take
    let (results, cols) ← takeResults names cols
    return ((name, v) :: results, col :: cols)
  | _, cols => .ok ([], cols)

/-- The row of a group that is complete. Its memory is given back. -/
def finishGroup (s : Selection) (key : List Value) (c : Control) :
    Except QueryError Value × Selection × Control :=
  match takeResults (s.names.drop key.length) s.aggregates with
  | .error e => (.error e, s, c)
  | .ok (results, aggregates) =>
    (.ok (.map (Record.ofFields (s.names.zip key ++ results))),
      { s with aggregates, groupMemory := 0 }, c.release s.groupMemory)

/-- Folds the current row into the group and emits the group before it, if that is now complete. -/
def foldAndEmit (s : Selection) (b : Bounds) (completed : Option Value) (c : Control) :
    Step Selection :=
  let (failure, aggregates, groupMemory, c) := foldRow s.aggregates s.groupMemory c
  let s := { s with aggregates, groupMemory }
  match failure, completed with
  | some e, _ => ⟨.fail e, s, c⟩
  | none, some row => s.emit b row c
  | none, none => ⟨.more, s, c⟩

/-- Takes a row into its group. A row of another group completes the one before it. -/
def groupRow (s : Selection) (b : Bounds) (c : Control) : Step Selection :=
  let s := { s with sawInput := true }
  match readColumns s.columns c with
  | (.error e, c) => ⟨.fail e, s, c⟩
  | (.ok key, c) =>
    match s.current with
    | none => { s with current := some key }.foldAndEmit b none c
    | some current =>
      if sameGroup current key then s.foldAndEmit b none c
      else
        match { s with current := none }.finishGroup current c with
        | (.error e, s, c) => ⟨.fail e, s, c⟩
        | (.ok row, s, c) => { s with current := some key }.foldAndEmit b (some row) c

/-- Emits the last group. Without any input, aggregates over no grouping columns still make a row,
and no offset leaves it out. -/
def endGroups (s : Selection) (b : Bounds) (gb : Nat) (c : Control) : Step Selection :=
  match s.current with
  | some current =>
    match { s with current := none }.finishGroup current c with
    | (.error e, s, c) => ⟨.fail e, { s with finished := true }, c⟩
    | (.ok row, s, c) => { s with finished := b.offset ≤ s.skipped }.emit b row c
  | none =>
    if gb = 0 && !s.sawInput then
      match s.finishGroup [] c with
      | (.error e, s, c) => ⟨.fail e, { s with finished := true }, c⟩
      | (.ok row, s, c) =>
        { s with finished := true, skipped := max s.skipped b.offset }.emit b row c
    else ⟨.dry, { s with finished := true }, c⟩

/-- Takes in what the input did. -/
def onInput (s : Selection) (b : Bounds) (signal : Signal) (c : Control) : Step Selection :=
  match signal, s.grouping with
  | .row, none => s.project b c
  | .row, some _ => s.groupRow b c
  | .dry, grouping =>
    if c.needsContinuation then ⟨.dry, s, c⟩
    else match grouping with
      | none => ⟨.dry, { s with finished := true }, c⟩
      | some gb => s.endGroups b gb c
  | other, _ => ⟨other, s, c⟩

/-- Whether input is needed, and what was done if it is not. -/
def begin (s : Selection) (c : Control) : Step Selection ⊕ (Bounds × Selection × Control) :=
  if s.finished then .inl ⟨.dry, s, c⟩
  else
    match s.evalBounds c with
    | (.error e, c) => .inl ⟨.fail e, s, c⟩
    | (.ok b, c) =>
      let s := { s with bounds := some b }
      if b.reached s.produced then .inl ⟨.dry, { s with finished := true }, c⟩
      else .inr (b, s, c)

/-- Gives back the memory of the group that is being folded. -/
def close (s : Selection) (c : Control) : Selection × Control :=
  ({ s with groupMemory := 0, current := none }, c.release s.groupMemory)

/-- The part that a select step has in the bound on the steps of a query. -/
def work (s : Selection) : Nat :=
  (if s.finished then 0 else 1) + (if s.current.isSome then 1 else 0)

end Selection
end ShardQuery
