import ShardQuery.Proofs.Operator.Registers

/-!
What a select step makes of a row or of the end of its input, apart from offset and limit: these
only decide whether the row that was made is let through.
-/

namespace ShardQuery.Selection

/-! ## Rows without bounds -/

/-- What was made of an input: an error, nothing yet, or a row. -/
abbrev Made := Except QueryError (Option Value) × Selection × Control

/-- The row that is made of the current input row. -/
def projected (s : Selection) (c : Control) : Made :=
  if s.star then (.ok (some (c.reg s.sourceReg)), s, c)
  else
    match readColumns (s.columns.take s.names.length) c with
    | (.error e, c) => (.error e, s, c)
    | (.ok values, c) => (.ok (some (.map (Record.ofFields (s.names.zip values)))), s, c)

/-- The completed row, once the current input row is folded into the group. -/
def folded (s : Selection) (completed : Option Value) (c : Control) : Made :=
  match foldRow s.aggregates s.groupMemory c with
  | (some e, aggregates, groupMemory, c) => (.error e, { s with aggregates, groupMemory }, c)
  | (none, aggregates, groupMemory, c) => (.ok completed, { s with aggregates, groupMemory }, c)

/-- Takes a row with a grouping tuple into its group. -/
def keyed (s : Selection) (key : List Value) (c : Control) : Made :=
  match s.current with
  | none => { s with current := some key }.folded none c
  | some current =>
    if sameGroup current key then s.folded none c
    else
      match { s with current := none }.finishGroup current c with
      | (.error e, s, c) => (.error e, s, c)
      | (.ok row, s, c) => { s with current := some key }.folded (some row) c

/-- The group before the current input row, if that row completes it. -/
def grouped (s : Selection) (c : Control) : Made :=
  match readColumns s.columns c with
  | (.error e, c) => (.error e, { s with sawInput := true }, c)
  | (.ok key, c) => { s with sawInput := true }.keyed key c

/-- What is made of the current input row. -/
def made (s : Selection) (c : Control) : Made :=
  if s.grouping.isSome then s.grouped c else s.projected c

/-- Lets the row through that was made, or leaves it out. -/
def pass (b : Bounds) : Made → Step Selection
  | (.error e, s, c) => ⟨.fail e, s, c⟩
  | (.ok none, s, c) => ⟨.more, s, c⟩
  | (.ok (some row), s, c) => s.emit b row c

section
variable (s : Selection) (b : Bounds) (c : Control)

theorem foldAndEmit_eq (completed : Option Value) :
    s.foldAndEmit b completed c = pass b (s.folded completed c) := by
  unfold foldAndEmit folded
  generalize foldRow s.aggregates s.groupMemory c = x
  rcases x with ⟨_ | e, aggregates, memory, d⟩ <;> cases completed <;> rfl

theorem onInput_row : s.onInput b .row c = pass b (s.made c) := by
  unfold onInput made
  cases hg : s.grouping with
  | none =>
    simp only [Option.isSome_none, Bool.false_eq_true, ↓reduceIte]
    unfold project projected
    split
    · rfl
    · generalize readColumns (s.columns.take s.names.length) c = x
      rcases x with ⟨_ | values, d⟩ <;> rfl
  | some gb =>
    simp only [Option.isSome_some, ↓reduceIte]
    simp only [groupRow, grouped, keyed]
    generalize readColumns s.columns c = x
    rcases x with ⟨_ | key, d⟩
    · rfl
    · simp only
      cases hc : s.current with
      | none => exact foldAndEmit_eq ..
      | some current =>
        simp only
        split
        · exact foldAndEmit_eq ..
        · generalize finishGroup _ current d = x
          rcases x with ⟨_ | row, t, d⟩
          · rfl
          · exact foldAndEmit_eq ..

/-! ## The bounds change nothing in what is made -/

/-- All that offset and limit keep. -/
structure Window where
  offset : Option Scalar
  limit : Option Scalar
  bounds : Option Bounds
  skipped : Nat
  produced : Nat
  finished : Bool

/-- The selection with other bounds, or at another place within them. -/
def windowed (w : Window) : Selection :=
  { s with offset := w.offset, limit := w.limit, bounds := w.bounds, skipped := w.skipped
           produced := w.produced, finished := w.finished }

/-- The same with another window. -/
def Made.windowed (m : Made) (w : Window) : Made := (m.1, m.2.1.windowed w, m.2.2)

variable (w : Window)

theorem finishGroup_windowed (key : List Value) :
    (s.windowed w).finishGroup key c =
      ((s.finishGroup key c).1, (s.finishGroup key c).2.1.windowed w,
        (s.finishGroup key c).2.2) := by
  simp only [finishGroup, windowed]
  cases takeResults (s.names.drop key.length) s.aggregates <;> rfl

theorem folded_windowed (completed : Option Value) :
    (s.windowed w).folded completed c = (s.folded completed c).windowed w := by
  simp only [folded, windowed]
  generalize foldRow s.aggregates s.groupMemory c = x
  rcases x with ⟨_ | e, aggregates, memory, d⟩ <;> rfl

theorem keyed_windowed (key : List Value) :
    (s.windowed w).keyed key c = (s.keyed key c).windowed w := by
  unfold keyed
  cases hc : s.current with
  | none =>
    have hc' : (s.windowed w).current = none := hc
    simp only [hc']
    exact folded_windowed { s with current := some key } c w none
  | some current =>
    have hc' : (s.windowed w).current = some current := hc
    simp only [hc']
    split
    · exact folded_windowed s c w none
    · have hf := finishGroup_windowed { s with current := none } c w current
      have hf' : { s.windowed w with current := none } =
        { s with current := none }.windowed w := rfl
      rw [hf', hf]
      generalize finishGroup { s with current := none } current c = x
      rcases x with ⟨_ | row, t, d⟩
      · rfl
      · exact folded_windowed { t with current := some key } d w (some row)

theorem made_windowed : (s.windowed w).made c = (s.made c).windowed w := by
  unfold made
  change (if s.grouping.isSome then _ else _) = _
  split
  · unfold grouped
    change (match readColumns s.columns c with | (.error e, c) => _ | (.ok key, c) => _) = _
    generalize readColumns s.columns c = x
    rcases x with ⟨_ | key, d⟩
    · rfl
    · exact keyed_windowed { s with sawInput := true } d w key
  · unfold projected
    change (if s.star then _ else _) = _
    split
    · rfl
    · change (match readColumns (s.columns.take s.names.length) c with
        | (.error e, c) => _ | (.ok key, c) => _) = _
      generalize readColumns (s.columns.take s.names.length) c = x
      rcases x with ⟨_ | values, d⟩ <;> rfl

end

/-! ## What stays of a selection -/

/-- A selection that has taken in more, with nothing changed that the plan says. -/
structure Continues (s t : Selection) : Prop where
  reg : t.reg = s.reg
  sourceReg : t.sourceReg = s.sourceReg
  columns : t.columns = s.columns
  names : t.names = s.names
  grouping : t.grouping = s.grouping
  star : t.star = s.star
  formulas : t.aggregates.map Column.formula = s.aggregates.map Column.formula
  sawInput : s.sawInput = true → t.sawInput = true

namespace Continues

variable {s t u : Selection}

theorem refl (s : Selection) : s.Continues s := ⟨rfl, rfl, rfl, rfl, rfl, rfl, rfl, id⟩

theorem trans (h : s.Continues t) (h' : t.Continues u) : s.Continues u where
  reg := h'.reg.trans h.reg
  sourceReg := h'.sourceReg.trans h.sourceReg
  columns := h'.columns.trans h.columns
  names := h'.names.trans h.names
  grouping := h'.grouping.trans h.grouping
  star := h'.star.trans h.star
  formulas := h'.formulas.trans h.formulas
  sawInput hs := h'.sawInput (h.sawInput hs)

end Continues

theorem foldRow_formulas (cols : List Column) (memory : Nat) (c : Control) :
    (foldRow cols memory c).2.1.map Column.formula = cols.map Column.formula := by
  induction cols generalizing memory c with
  | nil => rfl
  | cons col rest ih =>
    unfold foldRow
    have hf := @Column.formula_of_fold c col
    generalize col.fold c = x at hf
    rcases x with ⟨_ | ⟨grown, col'⟩, d⟩
    · rfl
    · have hcol := hf rfl
      simp only
      generalize (if grown = 0 then (none, d) else d.charge grown) = y
      rcases y with ⟨_ | e, d'⟩
      · simp only [List.map_cons, hcol, ih]
      · simp only [List.map_cons, hcol]

theorem takeResults_cons {name : String} {names : List String} {col : Column}
    {cols cols' : List Column} {results : List (String × Value)}
    (h : takeResults (name :: names) (col :: cols) = .ok (results, cols')) :
    ∃ v n taken more rest, col.take = .ok (v, n, taken) ∧
      takeResults names cols = .ok (more, rest) ∧ results = (name, v) :: more ∧
      cols' = taken :: rest := by
  simp only [takeResults, bind, Except.bind] at h
  cases ht : col.take with
  | error e =>
    rw [ht] at h
    cases h
  | ok taken =>
    rw [ht] at h
    simp only at h
    cases hr : takeResults names cols with
    | error e =>
      rw [hr] at h
      cases h
    | ok more =>
      rw [hr] at h
      cases h
      exact ⟨_, _, _, _, _, rfl, rfl, rfl, rfl⟩

theorem takeResults_formulas {names : List String} {cols cols' : List Column}
    {results : List (String × Value)} (h : takeResults names cols = .ok (results, cols')) :
    cols'.map Column.formula = cols.map Column.formula := by
  induction cols generalizing names results cols' with
  | nil => cases names <;> cases h <;> rfl
  | cons col rest ih =>
    cases names with
    | nil =>
      cases h
      rfl
    | cons name names =>
      obtain ⟨v, n, taken, more, cols, ht, hr, rfl, rfl⟩ := takeResults_cons h
      rw [List.map_cons, List.map_cons, Column.formula_of_take ht, ih hr]

section
variable (s : Selection) (c : Control)

theorem finishGroup_continues (key : List Value) : s.Continues (s.finishGroup key c).2.1 := by
  unfold finishGroup
  cases ht : takeResults (s.names.drop key.length) s.aggregates with
  | error e => exact .refl s
  | ok x => exact { Continues.refl s with formulas := takeResults_formulas ht }

theorem folded_continues (completed : Option Value) :
    s.Continues (s.folded completed c).2.1 := by
  have hr := foldRow_formulas s.aggregates s.groupMemory c
  unfold folded
  generalize foldRow s.aggregates s.groupMemory c = x at hr
  rcases x with ⟨_ | e, aggregates, memory, d⟩ <;> exact { Continues.refl s with formulas := hr }

theorem keyed_continues (key : List Value) : s.Continues (s.keyed key c).2.1 := by
  unfold keyed
  split
  · exact { folded_continues { s with current := some key } c none with }
  · split
    · exact folded_continues s c none
    · have hf := finishGroup_continues { s with current := none } c
      rename_i current _ _
      specialize hf current
      generalize finishGroup { s with current := none } current c = x at hf
      rcases x with ⟨_ | row, t, d⟩
      · exact { hf with }
      · have ht := folded_continues { t with current := some key } d (some row)
        exact { hf.trans { ht with } with }

theorem made_continues : s.Continues (s.made c).2.1 := by
  unfold made
  split
  · unfold grouped
    generalize readColumns s.columns c = x
    rcases x with ⟨_ | key, d⟩
    · exact { Continues.refl s with sawInput := fun _ => rfl }
    · have hk := keyed_continues { s with sawInput := true } d key
      exact { hk with sawInput := fun _ => hk.sawInput rfl }
  · unfold projected
    split
    · exact .refl s
    · split <;> exact .refl s

theorem made_sawInput (hg : s.grouping.isSome) : (s.made c).2.1.sawInput = true := by
  unfold made grouped
  rw [if_pos hg]
  split
  · rfl
  · exact (keyed_continues { s with sawInput := true } _ _).sawInput rfl

/-- Only a selection that has seen a row has a group. -/
theorem made_begun (h : s.current.isSome = true → s.sawInput = true) :
    (s.made c).2.1.current.isSome = true → (s.made c).2.1.sawInput = true := by
  cases hg : s.grouping with
  | some gb => exact fun _ => s.made_sawInput c (by rw [hg]; rfl)
  | none =>
    have hs : (s.made c).2.1 = s := by
      simp only [made, hg, Option.isSome_none, Bool.false_eq_true, ↓reduceIte, projected]
      split
      · rfl
      · split <;> rfl
    rwa [hs]

end

/-! ## The number of registers -/

section
variable (s : Selection) (c : Control)

theorem readColumns_size (cols : List Column) : (readColumns cols c).2.size = c.size := by
  induction cols generalizing c with
  | nil => rfl
  | cons col rest ih =>
    have h := col.read_size c
    unfold readColumns
    split <;> rename_i hr <;> rw [hr] at h
    · exact h
    · rename_i d
      have hi := ih d
      split <;> rename_i hs <;> rw [hs] at hi <;> exact hi.trans h

theorem foldRow_size (cols : List Column) (memory : Nat) :
    (foldRow cols memory c).2.2.2.size = c.size := by
  induction cols generalizing memory c with
  | nil => rfl
  | cons col rest ih =>
    have h := col.fold_size c
    unfold foldRow
    split <;> rename_i hf <;> rw [hf] at h
    · exact h
    · rename_i grown _ d
      have hg : (if grown = 0 then (none, d) else d.charge grown).2.size = d.size := by
        split
        · rfl
        · exact d.charge_size grown
      split <;> rename_i hs <;> rw [hs] at hg
      · exact hg.trans h
      · exact (ih _ _).trans (hg.trans h)

theorem finishGroup_size (key : List Value) : (s.finishGroup key c).2.2.size = c.size := by
  unfold finishGroup
  split <;> rfl

theorem folded_size (completed : Option Value) : (s.folded completed c).2.2.size = c.size := by
  have h := foldRow_size c s.aggregates s.groupMemory
  unfold folded
  split <;> rename_i hf <;> rw [hf] at h <;> exact h

theorem keyed_size (key : List Value) : (s.keyed key c).2.2.size = c.size := by
  unfold keyed
  split
  · exact folded_size _ c none
  · split
    · exact s.folded_size c none
    · rename_i current _ _
      have hf := finishGroup_size { s with current := none } c current
      split <;> rename_i hr <;> rw [hr] at hf
      · exact hf
      · exact (folded_size _ _ _).trans hf

theorem made_size : (s.made c).2.2.size = c.size := by
  unfold made
  split
  · have h := readColumns_size c s.columns
    unfold grouped
    split <;> rename_i hr <;> rw [hr] at h
    · exact h
    · exact (keyed_size _ _ _).trans h
  · unfold projected
    split
    · rfl
    · have h := readColumns_size c (s.columns.take s.names.length)
      split <;> rename_i hr <;> rw [hr] at h <;> exact h

end

/-! ## What a selection sees of the control -/

/-- The registers that the columns read as variables. -/
def reads (s : Selection) : List Nat := (s.columns ++ s.aggregates).flatMap Column.reads

theorem Continues.reads_eq {s t : Selection} (h : s.Continues t) : t.reads = s.reads := by
  have hr := congrArg (List.map Column.formulaReads) h.formulas
  simp only [List.map_map, Function.comp_def, Column.formulaReads_formula] at hr
  unfold Selection.reads
  rw [List.flatMap_append, List.flatMap_append, h.columns, t.aggregates.flatMap_def,
    s.aggregates.flatMap_def, hr]

section
variable {P : Nat → Prop} {c d : Control}

theorem readColumns_alongside (cols : List Column) (h : c.Alike P d)
    (hr : ∀ r ∈ cols.flatMap Column.reads, P r) :
    Alongside P (readColumns cols c) (readColumns cols d) := by
  induction cols generalizing c d with
  | nil => exact ⟨d, h, rfl⟩
  | cons col rest ih =>
    rw [List.flatMap_cons, List.forall_mem_append] at hr
    obtain ⟨d', hd, he⟩ := col.read_alongside h hr.1
    simp only [readColumns, he]
    generalize col.read c = x at hd ⊢
    rcases x with ⟨_ | v, c'⟩
    · exact ⟨d', hd, rfl⟩
    · have hd : c'.Alike P d' := hd
      obtain ⟨d'', hd, he⟩ := ih hd hr.2
      simp only [Carries.onControl, he]
      generalize readColumns rest c' = x at hd ⊢
      rcases x with ⟨_ | vs, c''⟩ <;> exact ⟨d'', hd, rfl⟩

theorem chargeGrowth_alongside (grown : Nat) (h : c.Alike P d) :
    Alongside P (if grown = 0 then (none, c) else c.charge grown)
      (if grown = 0 then (none, d) else d.charge grown) := by
  by_cases hg : grown = 0
  · simp only [hg, ↓reduceIte]
    exact ⟨d, h, rfl⟩
  · simp only [hg, ↓reduceIte]
    exact h.charge grown

theorem foldRow_alongside (cols : List Column) (memory : Nat) (h : c.Alike P d)
    (hr : ∀ r ∈ cols.flatMap Column.reads, P r) :
    Alongside P (foldRow cols memory c) (foldRow cols memory d) := by
  induction cols generalizing memory c d with
  | nil => exact ⟨d, h, rfl⟩
  | cons col rest ih =>
    rw [List.flatMap_cons, List.forall_mem_append] at hr
    obtain ⟨d', hd, he⟩ := col.fold_alongside h hr.1
    simp only [foldRow, he]
    generalize col.fold c = x at hd ⊢
    rcases x with ⟨_ | ⟨grown, col'⟩, c'⟩
    · exact ⟨d', hd, rfl⟩
    · have hd : c'.Alike P d' := hd
      obtain ⟨d'', hd, he⟩ := chargeGrowth_alongside grown hd
      simp only [Carries.onControl] at he ⊢
      simp only [he]
      generalize (if grown = 0 then (none, c') else c'.charge grown) = x at hd ⊢
      rcases x with ⟨_ | e, c''⟩
      · have hd : c''.Alike P d'' := hd
        obtain ⟨d₃, hd, he⟩ := ih (memory + grown) hd hr.2
        simp only [he]
        exact ⟨d₃, hd, rfl⟩
      · exact ⟨d'', hd, rfl⟩

theorem finishGroup_alongside (s : Selection) (key : List Value) (h : c.Alike P d) :
    Alongside P (s.finishGroup key c) (s.finishGroup key d) := by
  unfold finishGroup
  split
  · exact ⟨d, h, rfl⟩
  · exact ⟨d.release s.groupMemory, h.release _, rfl⟩

theorem folded_alongside (s : Selection) (completed : Option Value) (h : c.Alike P d)
    (hr : ∀ r ∈ s.reads, P r) : Alongside P (s.folded completed c) (s.folded completed d) := by
  rw [reads, List.flatMap_append, List.forall_mem_append] at hr
  obtain ⟨d', hd, he⟩ := foldRow_alongside s.aggregates s.groupMemory h hr.2
  simp only [folded, he]
  generalize foldRow s.aggregates s.groupMemory c = x at hd ⊢
  rcases x with ⟨_ | e, aggregates, memory, c'⟩ <;> exact ⟨d', hd, rfl⟩

theorem keyed_alongside (s : Selection) (key : List Value) (h : c.Alike P d)
    (hr : ∀ r ∈ s.reads, P r) : Alongside P (s.keyed key c) (s.keyed key d) := by
  unfold keyed
  split
  · exact folded_alongside { s with current := some key } none h hr
  · split
    · exact s.folded_alongside none h hr
    · rename_i current _ _
      obtain ⟨d', hd, he⟩ := finishGroup_alongside { s with current := none } current h
      have hc := finishGroup_continues { s with current := none } c current
      simp only [he]
      generalize finishGroup { s with current := none } current c = x at hd hc ⊢
      rcases x with ⟨_ | row, t, c'⟩
      · exact ⟨d', hd, rfl⟩
      · have ht : ∀ r ∈ t.reads, P r := hc.reads_eq ▸ hr
        exact folded_alongside { t with current := some key } (some row) hd ht

/-- A selection sees no registers but those of its columns and of its input. -/
theorem made_alongside (s : Selection) (h : c.Alike P d) (hr : ∀ r ∈ s.reads, P r)
    (hs : P s.sourceReg) : Alongside P (s.made c) (s.made d) := by
  have hcols := hr
  rw [reads, List.flatMap_append, List.forall_mem_append] at hcols
  unfold made
  split
  · obtain ⟨d', hd, he⟩ := readColumns_alongside s.columns h hcols.1
    simp only [grouped, he]
    generalize readColumns s.columns c = x at hd ⊢
    rcases x with ⟨_ | key, c'⟩
    · exact ⟨d', hd, rfl⟩
    · exact keyed_alongside { s with sawInput := true } key hd hr
  · unfold projected
    split
    · have hv : c.reg s.sourceReg = d.reg s.sourceReg := h.registers.read _ hs
      rw [hv]
      exact ⟨d, h, rfl⟩
    · have htake : ∀ r ∈ (s.columns.take s.names.length).flatMap Column.reads, P r := by
        intro r hr
        obtain ⟨col, hc, hcr⟩ := List.mem_flatMap.1 hr
        exact hcols.1 r (List.mem_flatMap.2 ⟨col, List.mem_of_mem_take hc, hcr⟩)
      obtain ⟨d', hd, he⟩ := readColumns_alongside _ h htake
      simp only [he]
      generalize readColumns (s.columns.take s.names.length) c = x at hd ⊢
      rcases x with ⟨_ | values, c'⟩ <;> exact ⟨d', hd, rfl⟩

end

end ShardQuery.Selection
