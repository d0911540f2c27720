import ShardQuery.Proofs.Operator.Contiguous
import ShardQuery.Proofs.Operator.GroupBy
import ShardQuery.Proofs.Operator.Groups

/-!
A select step that groups and reads nothing but fields: its aggregates are always fed the rows of
the run that has begun, and no others, and each row goes to that run or completes it.
-/

namespace ShardQuery

/-! ## Columns that read fields -/

/-- A function of a field of the input rows, with the registers of its result and of the field. -/
structure FieldAggregate where
  reg : Nat
  func : AggregateFunc
  inputReg : Nat
  name : String

/-- The columns of a step that groups its input rows by some fields and aggregates others. -/
structure FieldColumns where
  /-- The grouping fields, with the registers that they are read into. -/
  keys : List (Nat × String)
  aggregates : List FieldAggregate

namespace FieldAggregate

/-- The column of a select step that has come to an accumulator. -/
def column (source : Nat) (a : FieldAggregate) (acc : Accumulator) : Column :=
  .aggregate a.reg (some (.field a.inputReg (.var source) a.name)) acc

/-- The step of a plan. -/
def step (source : Nat) (row : String) (a : FieldAggregate) : PlanStep :=
  .aggregate a.reg a.func (some (Selection.fieldStep source row (a.inputReg, a.name)))

/-- The function with the column of the input that it takes. -/
def merged (a : FieldAggregate) : AggregateFunc × String := (a.func, a.name)

variable {a : FieldAggregate} {acc : Accumulator} {source : Nat} {c : Control} {r : Record}

/-- What an aggregate takes of a row is the field, or nothing if there is none. -/
theorem inputValue_eq (ha : a.inputReg < c.size) (hs : c.reg source = .map r) :
    (Column.inputValue (some (.field a.inputReg (.var source) a.name)) c).1 =
      .ok ((Value.map r).field a.name) := by
  have hs' : readRegister c.registers source = .map r := hs
  simp only [Column.inputValue, Scalar.run, Scalar.eval, Scalar.reg, hs', Scalar.fieldOf,
    Value.field, Value.record?, Option.bind_some]
  cases r.get? a.name with
  | none => rfl
  | some v =>
    by_cases hv : v = .empty
    · rw [hv]
      rfl
    · have he : v.isEmpty = false := by cases v <;> first | rfl | exact (hv rfl).elim
      simp only [Option.filter_some, he, Bool.not_false, ↓reduceIte, Option.getD_some, Control.reg]
      rw [readRegister_set, if_pos ⟨rfl, ha⟩]

theorem inputValue_source (ha : a.inputReg ≠ source) :
    (Column.inputValue (some (.field a.inputReg (.var source) a.name)) c).2.reg source =
      c.reg source := by
  have h : source ∉ (Scalar.field a.inputReg (.var source) a.name).writes :=
    fun h => ha (List.mem_singleton.1 h).symm
  have hrun : ((Scalar.field a.inputReg (.var source) a.name).run c).2.reg source =
      c.reg source := (@Scalar.eval_frame c.externals _ c.registers).read source h
  unfold Column.inputValue
  simp only
  split <;> rename_i hr <;> rw [hr] at hrun <;> exact hrun

/-- Folding a row feeds the accumulator with the field. -/
theorem fold_column (ha : a.inputReg < c.size) (hne : a.inputReg ≠ source)
    (hs : c.reg source = .map r) (acc : Accumulator) :
    ∃ d, (a.column source acc).fold c =
        ((acc.aggregate ((Value.map r).field a.name)).map fun p => (p.1, a.column source p.2), d) ∧
      d.size = c.size ∧ d.reg source = c.reg source := by
  have hv := inputValue_eq ha hs
  have hd := @inputValue_source a source c hne
  have hsize := Column.inputValue_size (some (.field a.inputReg (.var source) a.name)) c
  simp only [column, Column.fold]
  generalize Column.inputValue (some (.field a.inputReg (.var source) a.name)) c = x at hv hd hsize
  obtain ⟨_, d⟩ := x
  cases hv
  exact ⟨d, rfl, hsize, hd⟩

end FieldAggregate

namespace FieldColumns

/-- The names of the columns are those of the fields. -/
def names (cols : FieldColumns) : List String :=
  cols.keys.map (·.2) ++ cols.aggregates.map (·.name)

/-- A select step that groups by the fields row by row. -/
def selectStep (cols : FieldColumns) (reg : Nat) (source : PlanStep) (row : String) (star : Bool) :
    PlanStep :=
  .select reg source ⟨row, cols.names, some cols.keys.length, star⟩
    (cols.keys.map (Selection.fieldStep source.reg row) ++
      cols.aggregates.map (·.step source.reg row)) none none

/-- A group step with the same columns and functions. -/
structure Describes (cols : FieldColumns) (info : GroupInfo) : Prop where
  grouping : info.grouping = cols.keys.length
  names : info.names = cols.names
  funcs : info.funcs = cols.aggregates.map (·.func)

/-- A record with all grouping fields. -/
def HasKeys (cols : FieldColumns) (row : Value) : Prop :=
  (∃ r, row = .map r) ∧ ∀ f ∈ cols.keys, row.field f.2 ≠ .empty

/-- The registers of the columns are there, and none is that of the input rows. -/
structure Within (cols : FieldColumns) (source size : Nat) : Prop where
  keys : ∀ f ∈ cols.keys, f.1 < size ∧ f.1 ≠ source
  inputs : ∀ a ∈ cols.aggregates, a.inputReg < size ∧ a.inputReg ≠ source

variable {cols : FieldColumns} {info : GroupInfo} {row : Value}

namespace Describes

theorem take_names (h : cols.Describes info) :
    info.names.take info.grouping = cols.keys.map (·.2) := by
  rw [h.names, h.grouping, FieldColumns.names, List.take_left' (List.length_map _)]

theorem drop_names (h : cols.Describes info) :
    info.names.drop info.grouping = cols.aggregates.map (·.name) := by
  rw [h.names, h.grouping, FieldColumns.names, List.drop_left' (List.length_map _)]

theorem columns (h : cols.Describes info) :
    info.columns = cols.aggregates.map FieldAggregate.merged := by
  rw [GroupInfo.columns, h.drop_names, h.funcs, List.zip_map']
  rfl

theorem length_tuple (h : cols.Describes info) (row : Value) :
    (info.tuple row).length = info.grouping := by
  rw [GroupInfo.tuple, h.take_names, List.length_map, List.length_map, h.grouping]

/-- Where no grouping field is absent, the tuples of both steps are the same. -/
theorem groupTuple_eq (h : cols.Describes info) (hrow : cols.HasKeys row) :
    groupTuple (cols.keys.map (·.2)) row = info.tuple row := by
  rw [groupTuple, GroupInfo.tuple, h.take_names, List.map_map, List.map_map]
  exact List.map_congr_left fun f hf => Value.orNull_of_ne (hrow.2 f hf)

end Describes

end FieldColumns

/-! ## Folding a row into a run -/

/-- A failure for want of memory. -/
def QueryError.OutOfMemory (e : QueryError) : Prop := ∃ used limit, e = .memoryExceeded used limit

namespace Selection

variable {aggs : List FieldAggregate} {accs : List Accumulator} {source : Nat} {c : Control}
  {r : Record}

/-- What folding a row comes to where the accumulators come to `expected`: just these, and a
failure only if there are none or the budget is spent. -/
def Folds (aggs : List FieldAggregate) (source : Nat)
    (expected : Except QueryError (List Accumulator)) :
    Option QueryError × List Column × Nat × Control → Prop
  | (none, cols, _, _) => ∃ bs, expected = .ok bs ∧ cols = List.zipWith (·.column source) aggs bs
  | (some e, _, _, _) => (∃ e', expected = .error e') ∨ e.OutOfMemory

theorem Folds.cons {expected : Except QueryError (List Accumulator)} {failure : Option QueryError}
    {cols : List Column} {memory : Nat} {d : Control} (a : FieldAggregate) (b : Accumulator)
    (h : Folds aggs source expected (failure, cols, memory, d)) :
    Folds (a :: aggs) source (expected.map (b :: ·))
      (failure, a.column source b :: cols, memory, d) := by
  cases failure with
  | none =>
    obtain ⟨bs, rfl, rfl⟩ := h
    exact ⟨b :: bs, rfl, rfl⟩
  | some e => exact h.imp_left fun ⟨e', he⟩ => ⟨e', by rw [he]; rfl⟩

/-- Charging for what an aggregate has grown by leaves the registers as they are. -/
theorem chargeGrowth_registers {grown : Nat} {d d' : Control} {failure : Option QueryError}
    (h : (if grown = 0 then (none, d) else d.charge grown) = (failure, d')) :
    d'.registers = d.registers ∧ ∀ e ∈ failure, e.OutOfMemory := by
  split at h
  · cases h
    exact ⟨rfl, fun _ he => by cases he⟩
  · refine ⟨(congrArg (·.2.registers) h).symm.trans (d.charge_registers grown), ?_⟩
    rintro e rfl
    exact Grouping.charge_refused h

/-- Folding a row feeds each accumulator with its field. -/
theorem foldRow_folds (ha : ∀ a ∈ aggs, a.inputReg < c.size ∧ a.inputReg ≠ source)
    (hs : c.reg source = .map r) (accs : List Accumulator) (memory : Nat) :
    Folds aggs source
      (((aggs.map FieldAggregate.merged).zip accs).mapM fun p =>
        p.2.feed ((Value.map r).field p.1.2))
      (foldRow (List.zipWith (·.column source) aggs accs) memory c) := by
  induction aggs generalizing accs c memory with
  | nil => exact ⟨[], rfl, rfl⟩
  | cons a aggs ih =>
    cases accs with
    | nil => exact ⟨[], rfl, rfl⟩
    | cons acc accs =>
      obtain ⟨⟨hreg, hne⟩, hrest⟩ := List.forall_mem_cons.1 ha
      obtain ⟨d, hfold, hsize, hd⟩ := FieldAggregate.fold_column hreg hne hs acc
      have hfeed : acc.feed ((Value.map r).field a.merged.2) =
          (acc.aggregate ((Value.map r).field a.name)).map (·.2) := rfl
      simp only [List.zipWith_cons_cons, foldRow, hfold, List.map_cons, List.zip_cons_cons,
        List.mapM_cons, hfeed]
      cases acc.aggregate ((Value.map r).field a.name) with
      | error e => exact .inl ⟨e, rfl⟩
      | ok p =>
        obtain ⟨grown, b⟩ := p
        simp only [Except.map]
        rcases hcharge : (if grown = 0 then (none, d) else d.charge grown) with ⟨_ | e, d'⟩
        · have hregs := (chargeGrowth_registers hcharge).1
          have hsize' : d'.size = c.size := (congrArg List.length hregs).trans hsize
          have hd' : d'.reg source = .map r :=
            (congrArg (readRegister · source) hregs).trans (hd.trans hs)
          exact (ih (c := d') (hsize'.symm ▸ hrest) hd' accs (memory + grown)).cons a b
        · exact .inr ((chargeGrowth_registers hcharge).2 e rfl)

/-- The results come out with the names of their columns, and all accumulators are armed again. -/
theorem takeResults_columns {names : List String} (h : names.length = aggs.length) (source : Nat)
    (accs : List Accumulator) :
    takeResults names (List.zipWith (·.column source) aggs accs) =
      .ok (names.zip (accs.map Accumulator.result),
        List.zipWith (·.column source) aggs (accs.map Accumulator.rearm)) := by
  induction aggs generalizing names accs with
  | nil =>
    obtain rfl := List.length_eq_zero_iff.1 h
    rfl
  | cons a aggs ih =>
    cases names with
    | nil => cases h
    | cons name names =>
      cases accs with
      | nil => rfl
      | cons acc accs =>
        simp only [List.zipWith_cons_cons, takeResults, ih (Nat.succ.inj h)]
        rfl

/-! ## Rows and runs -/

/-- A select step over the columns, with so many registers. -/
structure GroupsOver (s : Selection) (cols : FieldColumns) (size : Nat) : Prop where
  columns : s.columns = cols.keys.map (fieldColumn s.sourceReg)
  grouping : s.grouping = some cols.keys.length
  names : s.names = cols.names
  source : s.sourceReg < size
  row : s.reg < size
  within : cols.Within s.sourceReg size

/-- The aggregates have been fed these rows. -/
def Holds (s : Selection) (cols : FieldColumns) (info : GroupInfo) (members : List Value) : Prop :=
  ∃ accs, info.fed members = .ok accs ∧
    s.aggregates = List.zipWith (·.column s.sourceReg) cols.aggregates accs

/-- The run that has begun, with its tuple. -/
structure Run (s : Selection) (cols : FieldColumns) (info : GroupInfo) (key members : List Value) :
    Prop where
  current : s.current = some key
  length : key.length = info.grouping
  holds : s.Holds cols info members

/-- What becomes of a row that is taken in: it is the last one of the run, or folding it failed
because an accumulator refused it or the budget is spent. -/
def Grows (cols : FieldColumns) (info : GroupInfo) (key members : List Value)
    (completed : Option Value) : Made → Prop
  | (.ok made, p, _) => made = completed ∧ p.Run cols info key members
  | (.error e, _, _) => (∀ as, info.fed members ≠ .ok as) ∨ e.OutOfMemory

section
variable {s : Selection} {cols : FieldColumns} {info : GroupInfo} {key k members : List Value}

theorem GroupsOver.continues {p : Selection} {size : Nat} (hg : s.GroupsOver cols size)
    (h : s.Continues p) : p.GroupsOver cols size where
  columns := by rw [h.columns, h.sourceReg, hg.columns]
  grouping := h.grouping.trans hg.grouping
  names := h.names.trans hg.names
  source := h.sourceReg ▸ hg.source
  row := h.reg ▸ hg.row
  within := h.sourceReg ▸ hg.within

theorem folded_grows (hinfo : cols.Describes info) (hw : cols.Within s.sourceReg c.size)
    (hrun : s.Run cols info key members) (hr : c.reg s.sourceReg = .map r)
    (completed : Option Value) :
    Grows cols info key (members ++ [.map r]) completed (s.folded completed c) := by
  obtain ⟨accs, hfed, haggs⟩ := hrun.holds
  have hfold := foldRow_folds hw.inputs hr accs s.groupMemory
  rw [← hinfo.columns, ← GroupInfo.fed_concat hfed, ← haggs] at hfold
  unfold folded
  generalize foldRow s.aggregates s.groupMemory c = x at hfold
  obtain ⟨_ | e, aggregates, memory, d⟩ := x
  · exact ⟨rfl, hrun.current, hrun.length, hfold⟩
  · refine hfold.imp_left fun ⟨e', he⟩ as has => ?_
    cases he.symm.trans has

/-- A run that is complete makes its row, and the aggregates are as if they had been fed no
rows. -/
theorem finishGroup_run (hinfo : cols.Describes info) (hnames : s.names = cols.names)
    (hlen : key.length = info.grouping) (h : s.Holds cols info members) (c : Control) :
    ∃ out aggregates, info.runRow (key, members) = .ok out ∧
      s.finishGroup key c =
        (.ok out, { s with aggregates, groupMemory := 0 }, c.release s.groupMemory) ∧
      Holds { s with aggregates, groupMemory := 0 } cols info [] := by
  obtain ⟨accs, hfed, haggs⟩ := h
  have hdrop : s.names.drop key.length = cols.aggregates.map (·.name) := by
    rw [hnames, ← hinfo.names, hlen, hinfo.drop_names]
  have hlen' : (cols.aggregates.map (·.name)).length = cols.aggregates.length := List.length_map _
  have htake := takeResults_columns hlen' s.sourceReg accs
  refine ⟨info.row key (accs.map Accumulator.result),
    List.zipWith (·.column s.sourceReg) cols.aggregates (accs.map Accumulator.rearm), ?_, ?_, _,
    GroupInfo.fed_rearm hfed, rfl⟩
  · rw [GroupInfo.runRow, hfed]
    rfl
  · rw [finishGroup, hdrop, haggs, htake]
    simp only
    rw [GroupInfo.row, hinfo.names, ← hnames, zip_append_eq, hdrop]

/-- A row that comes first begins a run. -/
theorem keyed_first (hinfo : cols.Describes info) (hw : cols.Within s.sourceReg c.size)
    (hcur : s.current = none) (h : s.Holds cols info []) (hk : k.length = info.grouping)
    (hr : c.reg s.sourceReg = .map r) :
    Grows cols info k [.map r] none (s.keyed k c) := by
  rw [keyed, hcur]
  exact folded_grows (s := { s with current := some k }) hinfo hw ⟨rfl, hk, h⟩ hr none

/-- A row of the group that has begun goes to its run. -/
theorem keyed_same (hinfo : cols.Describes info) (hw : cols.Within s.sourceReg c.size)
    (hrun : s.Run cols info key members) (hs : sameGroup key k = true)
    (hr : c.reg s.sourceReg = .map r) :
    Grows cols info key (members ++ [.map r]) none (s.keyed k c) := by
  rw [keyed, hrun.current]
  simp only [hs, ↓reduceIte]
  exact folded_grows hinfo hw hrun hr none

/-- A row of another group completes the run and begins one. -/
theorem keyed_other (hinfo : cols.Describes info) (hnames : s.names = cols.names)
    (hw : cols.Within s.sourceReg c.size) (hrun : s.Run cols info key members)
    (hs : sameGroup key k = false) (hk : k.length = info.grouping)
    (hr : c.reg s.sourceReg = .map r) :
    ∃ out, info.runRow (key, members) = .ok out ∧
      Grows cols info k [.map r] (some out) (s.keyed k c) := by
  obtain ⟨out, aggregates, hout, hfinish, hholds⟩ :=
    finishGroup_run (s := s.between) hinfo hnames hrun.length hrun.holds c
  refine ⟨out, hout, ?_⟩
  have hfinish' : { s with current := none }.finishGroup key c = _ := hfinish
  simp only [keyed, hrun.current, hs, Bool.false_eq_true, ↓reduceIte, hfinish']
  exact folded_grows (s := { s.between with aggregates, groupMemory := 0, current := some k })
    (c := c.release s.between.groupMemory) hinfo hw ⟨rfl, hk, hholds⟩ hr (some out)

theorem readColumns_source {fields : List (Nat × String)} (hf : ∀ f ∈ fields, f.1 ≠ source)
    (c : Control) :
    (readColumns (fields.map (fieldColumn source)) c).2.reg source = c.reg source := by
  induction fields generalizing c with
  | nil => rfl
  | cons f rest ih =>
    obtain ⟨hf, hrest⟩ := List.forall_mem_cons.1 hf
    have hd := fieldColumn_source (c := c) hf
    simp only [List.map_cons, readColumns]
    generalize (fieldColumn source f).read c = x at hd
    obtain ⟨_ | v, d⟩ := x
    · exact hd
    · have htail := ih hrest d
      simp only
      generalize readColumns (rest.map (fieldColumn source)) d = y at htail
      obtain ⟨_ | vs, e⟩ := y <;> exact htail.trans hd

/-- What is made of a row is settled by its tuple. -/
theorem made_eq_keyed (hg : s.GroupsOver cols c.size) (hinfo : cols.Describes info)
    (hrow : cols.HasKeys (c.reg s.sourceReg)) :
    ∃ d, d.size = c.size ∧ d.reg s.sourceReg = c.reg s.sourceReg ∧
      s.made c = { s with sawInput := true }.keyed (info.tuple (c.reg s.sourceReg)) d := by
  obtain ⟨r, hr⟩ := hrow.1
  have hkey := readColumns_fields hg.within.keys hr
  have hsource := readColumns_source (fun f hf => (hg.within.keys f hf).2) c
  have hsize := readColumns_size c (cols.keys.map (fieldColumn s.sourceReg))
  rw [← hr, hinfo.groupTuple_eq hrow] at hkey
  simp only [made, hg.grouping, Option.isSome_some, ↓reduceIte, grouped, hg.columns]
  generalize readColumns (cols.keys.map (fieldColumn s.sourceReg)) c = x at hkey hsource hsize
  obtain ⟨_, d⟩ := x
  cases hkey
  exact ⟨d, hsize, hsource, rfl⟩

/-- What is made of a row that arrives. -/
theorem made_arrive (hg : s.GroupsOver cols c.size) (hinfo : cols.Describes info) {a : InputRow}
    (hrow : cols.HasKeys a.row) : ∃ d r, a.row = .map r ∧ cols.Within s.sourceReg d.size ∧
      d.reg s.sourceReg = .map r ∧
      s.made (c.arrive s.sourceReg a) = { s with sawInput := true }.keyed (info.tuple a.row) d := by
  obtain ⟨r, hr⟩ := hrow.1
  have hreg := c.arrive_reg hg.source a
  rw [← c.arrive_size s.sourceReg a] at hg
  obtain ⟨d, hd, hdreg, hmade⟩ := made_eq_keyed hg hinfo (hreg.symm ▸ hrow)
  rw [hreg] at hdreg hmade
  exact ⟨d, r, hr, hd.symm ▸ hg.within, hdreg.trans hr, hmade⟩

end

end Selection
end ShardQuery
