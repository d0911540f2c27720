import ShardQuery.Operator.Accumulator
import ShardQuery.Operator.Control

/-!
Group steps: rows with equal grouping values become one row, wherever they stand in the input.
Without aggregates each new tuple of grouping values is emitted as it comes; with aggregates the
whole input is read first.
-/

namespace ShardQuery

/-- One group. -/
structure GroupEntry where
  key : List Value
  accumulators : List Accumulator
  /-- Bytes charged for the key and the accumulators. -/
  memory : Nat
  deriving Inhabited, Repr

inductive GroupPhase where
  | consuming
  | emitting
  | done
  deriving DecidableEq, Inhabited, Repr

structure Grouping where
  reg : Nat
  /-- The register of the input rows. -/
  inputReg : Nat
  info : GroupInfo
  phase : GroupPhase := .consuming
  /-- The groups, which are looked up by their keys. -/
  groups : List GroupEntry := []
  /-- The keys of the groups whose row is still to come, in the order in which they were first
  seen. A step that emits tuples as they come puts none here. -/
  order : List (List Value) := []
  /-- Bytes charged for all groups. -/
  charged : Nat := 0
  deriving Inhabited, Repr

namespace Grouping

def keyNames (g : Grouping) : List String := g.info.names.take g.info.grouping

def partialNames (g : Grouping) : List String := g.info.names.drop g.info.grouping

/-- Whether each tuple is emitted as it comes. -/
def streams (g : Grouping) : Bool := g.info.funcs.isEmpty

/-- The grouping values of a row. A missing one becomes a null where only distinct tuples are asked
for, and otherwise keeps the row out. -/
def keyOf (nullable : Bool) (row : Record) : List String → Option (List Value)
  | [] => some []
  | name :: rest =>
    match (Record.get? row name).getD .empty with
    | .empty => if nullable then (keyOf nullable row rest).map (.null :: ·) else none
    | v => (keyOf nullable row rest).map (v :: ·)

/-- Bytes charged for the values and the encoding of a key. -/
def keyMemory (g : Grouping) (key : List Value) : Nat :=
  if !g.info.countMemory then 0
  else if g.streams then groupSize key else groupCopySize key

/-- Charges for a new group. -/
def chargeKey (g : Grouping) (key : List Value) (c : Control) : Option QueryError × Control :=
  if g.info.countMemory then c.charge (g.keyMemory key) else (none, c)

/-- A group that has seen no row. -/
def entry (g : Grouping) (key : List Value) : GroupEntry :=
  ⟨key, g.info.funcs.map Accumulator.ofFunc, g.keyMemory key⟩

/-- The group of a key. -/
def find? (g : Grouping) (key : List Value) : Option GroupEntry :=
  g.groups.find? fun e => sameGroup e.key key

/-- Whether there is a group for a key. -/
def has (g : Grouping) (key : List Value) : Bool := g.groups.any fun e => sameGroup e.key key

/-- The grouping with a group for a key that had none. Where there are aggregates, its row is still
to come. -/
def added (g : Grouping) (key : List Value) : Grouping :=
  { g with
    groups := g.groups ++ [g.entry key]
    order := if g.streams then g.order else g.order ++ [key]
    charged := g.charged + (g.entry key).memory }

/-- Charges for a new group and adds it. -/
def insert (g : Grouping) (key : List Value) (c : Control) :
    Option QueryError × Grouping × Control :=
  match g.chargeKey key c with
  | (some e, c) => (some e, g, c)
  | (none, c) => (none, g.added key, c)

/-- The grouping without the group of a key, whose bytes it no longer holds. -/
def removed (g : Grouping) (key : List Value) (e : GroupEntry) : Grouping :=
  { g with
    groups := g.groups.eraseP fun e => sameGroup e.key key
    charged := g.charged - e.memory }

/-- A row made of a key and of what was aggregated. -/
def makeRow (g : Grouping) (key results : List Value) : Value :=
  .map (Record.ofFields (g.info.names.zip (key ++ results)))

/-- Emits a tuple if it is new. -/
def streamRow (g : Grouping) (key : List Value) (c : Control) : Step Grouping :=
  if g.has key then ⟨.more, g, c⟩
  else
    match g.insert key c with
    | (some e, g, c) => ⟨.fail e, g, c⟩
    | (none, g, c) => ⟨.row, g, c.setReg g.reg (g.makeRow key [])⟩

/-- Merges the columns of a row into the accumulators, one by one. A failure leaves the later ones
as they were. -/
def mergeAll : List Accumulator → List Value → Option QueryError × List Accumulator × Nat
  | acc :: accs, v :: vs =>
    match acc.merge v with
    | .error e => (some e, acc :: accs, 0)
    | .ok (grown, acc) =>
      let (failure, accs, more) := mergeAll accs vs
      (failure, acc :: accs, grown + more)
  | accs, _ => (none, accs, 0)

/-- Changes the entry of a group. -/
def update (key : List Value) (f : GroupEntry → GroupEntry) (es : List GroupEntry) :
    List GroupEntry :=
  es.map fun e => if sameGroup e.key key then f e else e

/-- Merges a row into its group, if there is one. -/
def foldRow (g : Grouping) (key partials : List Value) (c : Control) : Step Grouping :=
  match g.find? key with
  | none => ⟨.more, g, c⟩
  | some e =>
    let (failure, accumulators, grown) := mergeAll e.accumulators partials
    let g := { g with groups := update key (fun e => { e with accumulators }) g.groups }
    match failure with
    | some e => ⟨.fail e, g, c⟩
    | none =>
      if grown = 0 || !g.info.countMemory then ⟨.more, g, c⟩
      else
        match c.charge grown with
        | (some e, c) => ⟨.fail e, g, c⟩
        | (none, c) =>
          let groups := update key (fun e => { e with memory := e.memory + grown }) g.groups
          ⟨.more, { g with groups, charged := g.charged + grown }, c⟩

/-- Makes sure that there is a group for a key. -/
def ensure (g : Grouping) (key : List Value) (c : Control) :
    Option QueryError × Grouping × Control :=
  if g.has key then (none, g, c) else g.insert key c

/-- Takes in the current input row. -/
def consume (g : Grouping) (c : Control) : Step Grouping :=
  match c.reg g.inputReg with
  | .map row =>
    match keyOf (g.info.distinct && g.streams) row g.keyNames with
    | none => ⟨.more, g, c⟩
    | some key =>
      if g.streams then g.streamRow key c
      else
        match g.ensure key c with
        | (some e, g, c) => ⟨.fail e, g, c⟩
        | (none, g, c) =>
          g.foldRow key (g.partialNames.map fun n => (Record.get? row n).getD .empty) c
  | other => ⟨.fail (.defect s!"group input must be a record, got {other.typeName}"), g, c⟩

/-- Takes note that the input has ended. Aggregates over no grouping columns still make a row if
there was no input. -/
def endInput (g : Grouping) (c : Control) : Step Grouping :=
  if g.streams then ⟨.dry, { g with phase := .done }, c⟩
  else if g.groups.isEmpty && g.info.grouping = 0 then
    match g.insert [] c with
    | (some e, g, c) => ⟨.fail e, g, c⟩
    | (none, g, c) => ⟨.more, { g with phase := .emitting }, c⟩
  else ⟨.more, { g with phase := .emitting }, c⟩

/-- The failure of a step that does not find the group of a key. -/
def entryMissing : QueryError := .defect "emitted group has no entry"

/-- Emits the row of the next group. The group itself may go with it. -/
def emitNext (g : Grouping) (c : Control) : Step Grouping :=
  match g.order with
  | [] => ⟨.dry, { g with phase := .done }, c⟩
  | key :: order =>
    let g := { g with order }
    match g.find? key with
    | none => ⟨.fail entryMissing, g, c⟩
    | some e =>
      let c := c.setReg g.reg (g.makeRow key (e.accumulators.map Accumulator.result))
      if g.info.removeProduced then ⟨.row, g.removed key e, c.release e.memory⟩
      else ⟨.row, g, c⟩

/-- Takes in what the input did. -/
def onInput (g : Grouping) (signal : Signal) (c : Control) : Step Grouping :=
  match signal with
  | .row => g.consume c
  | .dry => if c.needsContinuation then ⟨.dry, g, c⟩ else g.endInput c
  | other => ⟨other, g, c⟩

/-- Gives back all memory. -/
def close (g : Grouping) (c : Control) : Grouping × Control :=
  ({ g with groups := [], order := [], charged := 0, phase := .done }, c.release g.charged)

/-- The part that a group step has in the bound on the steps of a query. -/
def work (g : Grouping) : Nat :=
  g.order.length + if g.phase = .consuming then 2 else 0

end Grouping
end ShardQuery
