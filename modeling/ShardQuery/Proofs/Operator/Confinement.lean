import ShardQuery.Proofs.Merge.Books
import ShardQuery.Proofs.Operator.Leaf
import ShardQuery.Proofs.Operator.Scope

/-!
Whatever operators do with a row, with the end of their input or with a batch, they stay within what
there is, if all that they name is there.
-/

namespace ShardQuery
variable {σ : Scope}

/-! ## Select steps -/

namespace Selection
variable {s : Selection} {b : Bounds}

theorem evalBound_confined (clause : String) {bound : Option Scalar}
    (h : ∀ e ∈ bound, e.Fits σ) : Confined Lapse σ (evalBound clause bound) := by
  intro c extra hc
  cases bound with
  | none => exact ⟨rfl, ⟨trivial, hc⟩, .none rfl⟩
  | some e =>
    have hs := h e rfl
    obtain ⟨hr, hf, he⟩ := Scalar.run_confined hs c extra hc
    simp only [evalBound, hr]
    generalize e.run c = x at hf he ⊢
    rcases x with ⟨failure | _ | _, d⟩
    · exact ⟨rfl, ⟨trivial, hf.2⟩, he⟩
    · exact ⟨rfl, ⟨trivial, hf.2⟩, .of_fault (.inl (.invalidArgument _)) rfl⟩
    · simp only [Carries.onControl, Control.reg_padded extra hf.2 hs.reg_lt]
      split
      · split
        · exact ⟨rfl, ⟨trivial, hf.2⟩, .none rfl⟩
        · exact ⟨rfl, ⟨trivial, hf.2⟩, .of_fault (.inl (.invalidArgument _)) rfl⟩
      · exact ⟨rfl, ⟨trivial, hf.2⟩, .of_fault (.inl (.invalidArgument _)) rfl⟩

theorem evalBounds_confined (h : s.Fits σ) : Confined Lapse σ s.evalBounds := by
  intro c extra hc
  simp only [evalBounds]
  split
  · exact ⟨rfl, ⟨trivial, hc⟩, .none rfl⟩
  · obtain ⟨hr, hf, he⟩ := evalBound_confined "OFFSET" h.offset c extra hc
    simp only [hr]
    generalize evalBound "OFFSET" s.offset c = x at hf he ⊢
    rcases x with ⟨e | offset, d⟩
    · exact ⟨rfl, ⟨trivial, hf.2⟩, he⟩
    · obtain ⟨hr, hf, he⟩ := evalBound_confined "LIMIT" h.limit d extra hf.2
      simp only [Carries.onControl, hr]
      generalize evalBound "LIMIT" s.limit d = x at hf he ⊢
      rcases x with ⟨e | limit, d⟩
      · exact ⟨rfl, ⟨trivial, hf.2⟩, he⟩
      · exact ⟨rfl, ⟨trivial, hf.2⟩, .none rfl⟩

theorem emit_confined (h : s.Fits σ) (row : Value) : Confined Lapse σ (s.emit b row) := by
  intro c extra hc
  simp only [emit]
  split
  · exact ⟨rfl, ⟨{ h with }, hc⟩, .none rfl⟩
  · rw [Control.setReg_padded extra hc h.reg]
    exact ⟨rfl, ⟨{ h with }, hc.setReg ..⟩, .none rfl⟩

theorem readColumns_confined {cols : List Column} (h : ∀ col ∈ cols, col.Fits σ) :
    Confined Lapse σ (readColumns cols) := by
  induction cols with
  | nil => exact fun _ _ hc => ⟨rfl, ⟨trivial, hc⟩, .none rfl⟩
  | cons col rest ih =>
    obtain ⟨hcol, hrest⟩ := List.forall_mem_cons.1 h
    intro c extra hc
    obtain ⟨hr, hf, he⟩ := Column.read_confined hcol c extra hc
    simp only [readColumns, hr]
    generalize col.read c = x at hf he ⊢
    rcases x with ⟨e | v, d⟩
    · exact ⟨rfl, ⟨trivial, hf.2⟩, he⟩
    · obtain ⟨hr, hf, he⟩ := ih hrest d extra hf.2
      simp only [Carries.onControl, hr]
      generalize readColumns rest d = x at hf he ⊢
      rcases x with ⟨e | vs, d⟩
      · exact ⟨rfl, ⟨trivial, hf.2⟩, he⟩
      · exact ⟨rfl, ⟨trivial, hf.2⟩, .none rfl⟩

theorem project_confined (h : s.Fits σ) : Confined Lapse σ (s.project b) := by
  intro c extra hc
  simp only [project, Control.reg_padded extra hc h.sourceReg]
  split
  · exact emit_confined h _ c extra hc
  · have hcols : ∀ col ∈ s.columns.take s.names.length, col.Fits σ :=
      fun col hm => h.columns col (List.mem_of_mem_take hm)
    obtain ⟨hr, hf, he⟩ := readColumns_confined hcols c extra hc
    simp only [hr]
    generalize readColumns (s.columns.take s.names.length) c = x at hf he ⊢
    rcases x with ⟨e | vs, d⟩
    · exact ⟨rfl, ⟨h, hf.2⟩, he⟩
    · exact emit_confined h _ d extra hf.2

theorem chargeGrowth_inside (grown : Nat) {c : Control} (extra : List Value) (hc : c.Offers σ) :
    Inside Lapse σ extra (if grown = 0 then (none, c) else c.charge grown)
      (if grown = 0 then (none, c.padded extra) else (c.padded extra).charge grown) := by
  split
  · exact ⟨rfl, ⟨trivial, hc⟩, .none rfl⟩
  · exact Control.charge_inside grown extra hc

theorem foldRow_confined {cols : List Column} (h : ∀ col ∈ cols, col.Folds σ) (memory : Nat) :
    Confined Lapse σ (foldRow cols memory) := by
  induction cols generalizing memory with
  | nil => exact fun _ _ hc => ⟨rfl, ⟨trivial, h, trivial, hc⟩, .none rfl⟩
  | cons col rest ih =>
    obtain ⟨hcol, hrest⟩ := List.forall_mem_cons.1 h
    intro c extra hc
    obtain ⟨hr, hf, he⟩ := Column.fold_confined hcol c extra hc
    simp only [foldRow, hr]
    generalize col.fold c = x at hf he ⊢
    rcases x with ⟨e | ⟨grown, col'⟩, d⟩
    · exact ⟨rfl, ⟨trivial, h, trivial, hf.2⟩, he⟩
    · have hcol' : col'.Folds σ := hf.1.2
      obtain ⟨hr, hf, he⟩ := chargeGrowth_inside grown extra hf.2
      simp only [Carries.onControl] at hr ⊢
      simp only [hr]
      generalize (if grown = 0 then (none, d) else d.charge grown) = x at hf he ⊢
      rcases x with ⟨_ | e, d⟩
      · obtain ⟨hr, hf, he⟩ := ih hrest (memory + grown) d extra hf.2
        simp only [hr]
        exact ⟨rfl, ⟨trivial, List.forall_mem_cons.2 ⟨hcol', hf.2.1⟩, hf.2.2⟩, he⟩
      · exact ⟨rfl, ⟨trivial, List.forall_mem_cons.2 ⟨hcol', hrest⟩, trivial, hf.2⟩, he⟩

/-- Aggregates have results, and go on as aggregates. -/
theorem takeResults_folds {cols : List Column} (h : ∀ col ∈ cols, col.Folds σ)
    (names : List String) :
    ∃ results cols', takeResults names cols = .ok (results, cols') ∧
      ∀ col ∈ cols', col.Folds σ := by
  induction cols generalizing names with
  | nil => cases names <;> exact ⟨_, _, rfl, h⟩
  | cons col rest ih =>
    cases names with
    | nil => exact ⟨_, _, rfl, h⟩
    | cons name names =>
      obtain ⟨hcol, hrest⟩ := List.forall_mem_cons.1 h
      obtain ⟨v, n, col', ht, hcol'⟩ := Column.take_folds hcol
      obtain ⟨results, cols', hr, hcols⟩ := ih hrest names
      refine ⟨(name, v) :: results, col' :: cols', ?_, List.forall_mem_cons.2 ⟨hcol', hcols⟩⟩
      simp only [takeResults, ht, hr]
      rfl

theorem finishGroup_confined (h : s.Fits σ) (key : List Value) :
    Confined Lapse σ (s.finishGroup key) := by
  intro c extra hc
  obtain ⟨results, cols, ht, hcols⟩ := takeResults_folds h.aggregates (s.names.drop key.length)
  simp only [finishGroup, ht]
  exact ⟨rfl, ⟨trivial, { h with aggregates := hcols }, hc⟩, .none rfl⟩

theorem foldAndEmit_confined (h : s.Fits σ) (row : Option Value) :
    Confined Lapse σ (s.foldAndEmit b row) := by
  intro c extra hc
  obtain ⟨hr, hf, he⟩ := foldRow_confined h.aggregates s.groupMemory c extra hc
  simp only [foldAndEmit, hr]
  generalize foldRow s.aggregates s.groupMemory c = x at hf he ⊢
  rcases x with ⟨_ | e, aggregates, memory, d⟩
  · have hs : Selection.Fits σ { s with aggregates, groupMemory := memory } :=
      { h with aggregates := hf.2.1 }
    cases row with
    | none => exact ⟨rfl, ⟨hs, hf.2.2.2⟩, .none rfl⟩
    | some row => exact emit_confined hs row d extra hf.2.2.2
  · exact ⟨rfl, ⟨{ h with aggregates := hf.2.1 }, hf.2.2.2⟩, he⟩

theorem groupRow_confined (h : s.Fits σ) : Confined Lapse σ (s.groupRow b) := by
  intro c extra hc
  obtain ⟨hr, hf, he⟩ := readColumns_confined h.columns c extra hc
  simp only [groupRow, hr]
  generalize readColumns s.columns c = x at hf he ⊢
  rcases x with ⟨e | key, d⟩
  · exact ⟨rfl, ⟨{ h with }, hf.2⟩, he⟩
  simp only [Carries.onControl]
  cases hcur : s.current with
  | none =>
    have hs : Selection.Fits σ { s with sawInput := true, current := some key } := { h with }
    exact foldAndEmit_confined hs none d extra hf.2
  | some current =>
    simp only
    split
    · have hs : Selection.Fits σ { s with sawInput := true, current := some current } := { h with }
      exact foldAndEmit_confined hs none d extra hf.2
    · have hs : Selection.Fits σ { s with sawInput := true, current := none } := { h with }
      obtain ⟨hr, hf, he⟩ := finishGroup_confined hs current d extra hf.2
      simp only [hr]
      generalize finishGroup _ current d = x at hf he ⊢
      rcases x with ⟨e | row, t, d⟩
      · exact ⟨rfl, hf.2, he⟩
      · have ht : Selection.Fits σ { t with current := some key } := { hf.2.1 with }
        exact foldAndEmit_confined ht _ d extra hf.2.2

theorem endGroups_confined (h : s.Fits σ) (gb : Nat) : Confined Lapse σ (s.endGroups b gb) := by
  intro c extra hc
  simp only [endGroups]
  cases hcur : s.current with
  | some current =>
    have hs : Selection.Fits σ { s with current := none } := { h with }
    obtain ⟨hr, hf, he⟩ := finishGroup_confined hs current c extra hc
    simp only [hr]
    generalize finishGroup _ current c = x at hf he ⊢
    rcases x with ⟨e | row, t, d⟩
    · exact ⟨rfl, ⟨{ hf.2.1 with }, hf.2.2⟩, he⟩
    · have ht : Selection.Fits σ { t with finished := b.offset ≤ t.skipped } := { hf.2.1 with }
      exact emit_confined ht row d extra hf.2.2
  | none =>
    simp only
    split
    · obtain ⟨hr, hf, he⟩ := finishGroup_confined h [] c extra hc
      simp only [hr]
      generalize finishGroup s [] c = x at hf he ⊢
      rcases x with ⟨e | row, t, d⟩
      · exact ⟨rfl, ⟨{ hf.2.1 with }, hf.2.2⟩, he⟩
      · have ht : Selection.Fits σ { t with finished := true, skipped := max t.skipped b.offset } :=
          { hf.2.1 with }
        exact emit_confined ht row d extra hf.2.2
    · exact ⟨rfl, ⟨{ h with }, hc⟩, .none rfl⟩

theorem begin_confined (h : s.Fits σ) : Confined Lapse σ s.begin := by
  intro c extra hc
  simp only [begin]
  split
  · exact ⟨rfl, ⟨h, hc⟩, .none rfl⟩
  · obtain ⟨hr, hf, he⟩ := evalBounds_confined h c extra hc
    simp only [hr]
    generalize s.evalBounds c = x at hf he ⊢
    rcases x with ⟨e | b, d⟩
    · exact ⟨rfl, ⟨h, hf.2⟩, he⟩
    · simp only [Carries.onControl]
      split
      · exact ⟨rfl, ⟨{ h with }, hf.2⟩, .none rfl⟩
      · exact ⟨rfl, ⟨trivial, { h with }, hf.2⟩, .none rfl⟩

/-- What the input did is taken in from a control with more registers as well. -/
theorem onInput_confined (h : s.Fits σ) {extra : List Value} {i j : Step Operator}
    (hi : Inside Lapse σ extra i j) :
    Inside Lapse σ extra (s.onInput b i.signal i.control) (s.onInput b j.signal j.control) := by
  obtain ⟨rfl, ⟨-, hc⟩, he⟩ := hi
  obtain ⟨signal, op, c⟩ := i
  simp only [Carries.onControl, onInput, Control.needsContinuation_padded]
  split
  · exact project_confined h c extra hc
  · exact groupRow_confined h c extra hc
  · by_cases hn : c.needsContinuation = true
    · simp only [hn, ↓reduceIte]
      exact ⟨rfl, ⟨h, hc⟩, .none rfl⟩
    · simp only [hn]
      cases s.grouping with
      | none => exact ⟨rfl, ⟨{ h with }, hc⟩, .none rfl⟩
      | some gb => exact endGroups_confined h gb c extra hc
  · exact ⟨rfl, ⟨h, hc⟩, he⟩

end Selection

/-! ## Group steps -/

namespace Grouping
variable {g : Grouping}

theorem chargeKey_confined (g : Grouping) (key : List Value) :
    Confined Lapse σ (g.chargeKey key) := by
  unfold chargeKey
  split
  · exact fun _ extra hc => Control.charge_inside _ extra hc
  · exact fun _ _ hc => ⟨rfl, ⟨trivial, hc⟩, .none rfl⟩

theorem insert_confined (h : g.Fits σ) {key : List Value} (hn : g.has key = false) :
    Confined Lapse σ (g.insert key) := by
  intro c extra hc
  obtain ⟨hr, hf, he⟩ := g.chargeKey_confined key c extra hc
  simp only [insert, hr]
  generalize g.chargeKey key c = x at hf he ⊢
  rcases x with ⟨_ | e, d⟩
  · exact ⟨rfl, ⟨trivial, ⟨h.reg, h.inputReg, h.queued.added hn⟩, hf.2⟩, .none rfl⟩
  · exact ⟨rfl, ⟨trivial, h, hf.2⟩, he⟩

theorem streamRow_confined (h : g.Fits σ) (key : List Value) :
    Confined Lapse σ (g.streamRow key) := by
  intro c extra hc
  simp only [streamRow]
  split
  · exact ⟨rfl, ⟨h, hc⟩, .none rfl⟩
  · rename_i hn
    obtain ⟨hr, hf, he⟩ := insert_confined h (Bool.not_eq_true _ ▸ hn) c extra hc
    simp only [hr]
    generalize g.insert key c = x at hf he ⊢
    rcases x with ⟨_ | e, t, d⟩
    · simp only [Carries.onControl, Control.setReg_padded extra hf.2.2 hf.2.1.reg]
      exact ⟨rfl, ⟨hf.2.1, hf.2.2.setReg ..⟩, .none rfl⟩
    · exact ⟨rfl, hf.2, he⟩

/-- Only what the groups hold has changed. -/
theorem Fits.updated (h : g.Fits σ) (key : List Value) {f : GroupEntry → GroupEntry}
    (hf : ∀ e, (f e).key = e.key) (charged : Nat) :
    Fits σ { g with groups := update key f g.groups, charged } :=
  ⟨h.reg, h.inputReg, h.queued.update hf charged⟩

theorem foldRow_confined (h : g.Fits σ) (key partials : List Value) :
    Confined Lapse σ (g.foldRow key partials) := by
  intro c extra hc
  simp only [foldRow]
  split
  · exact ⟨rfl, ⟨h, hc⟩, .none rfl⟩
  · rename_i e _
    have hm := (mergeAll_setback e.accumulators partials).lapse
    generalize mergeAll e.accumulators partials = m at hm ⊢
    obtain ⟨failure, accumulators, grown⟩ := m
    have hg := h.updated key (f := fun e => { e with accumulators }) (fun _ => rfl) g.charged
    rcases failure with _ | failure
    · simp only
      split
      · exact ⟨rfl, ⟨hg, hc⟩, .none rfl⟩
      · obtain ⟨hr, hf, he⟩ := Control.charge_inside grown extra hc
        simp only [hr]
        generalize c.charge grown = x at hf he ⊢
        rcases x with ⟨_ | e, d⟩
        · have hg' := hg.updated key (f := fun e => { e with memory := e.memory + grown })
            (fun _ => rfl) (g.charged + grown)
          exact ⟨rfl, ⟨hg', hf.2⟩, .none rfl⟩
        · exact ⟨rfl, ⟨hg, hf.2⟩, he⟩
    · exact ⟨rfl, ⟨hg, hc⟩, hm⟩

theorem ensure_confined (h : g.Fits σ) (key : List Value) : Confined Lapse σ (g.ensure key) := by
  intro c extra hc
  simp only [ensure]
  split
  · exact ⟨rfl, ⟨trivial, h, hc⟩, .none rfl⟩
  · rename_i hn
    exact insert_confined h (Bool.not_eq_true _ ▸ hn) c extra hc

theorem consume_confined (h : g.Fits σ) : Confined Lapse σ g.consume := by
  intro c extra hc
  simp only [consume, Control.reg_padded extra hc h.inputReg]
  split
  · split
    · exact ⟨rfl, ⟨h, hc⟩, .none rfl⟩
    · rename_i row _ key _
      by_cases hs : g.streams = true
      · simp only [hs, ↓reduceIte]
        exact streamRow_confined h key c extra hc
      · obtain ⟨hr, hf, he⟩ := ensure_confined h key c extra hc
        simp only [hs, Bool.false_eq_true, ↓reduceIte, hr]
        generalize g.ensure key c = x at hf he ⊢
        rcases x with ⟨_ | e, t, d⟩
        · exact foldRow_confined hf.2.1 key _ d extra hf.2.2
        · exact ⟨rfl, hf.2, he⟩
  · rename_i v hmap
    refine ⟨rfl, ⟨h, hc⟩, .of_fault (.inr (.groupInput ?_)) rfl⟩
    cases hv : c.reg g.inputReg with
    | map row => exact (hmap row hv).elim
    | _ => rfl

/-- Another phase makes no difference. -/
theorem Fits.enter (h : g.Fits σ) (phase : GroupPhase) : Fits σ { g with phase } :=
  ⟨h.reg, h.inputReg, h.queued.distinct, h.queued.order, h.queued.streaming⟩

theorem endInput_confined (h : g.Fits σ) : Confined Lapse σ g.endInput := by
  intro c extra hc
  simp only [endInput]
  split
  · exact ⟨rfl, ⟨h.enter .done, hc⟩, .none rfl⟩
  · split
    · rename_i hnone
      have hn : g.has [] = false := by
        rw [Bool.and_eq_true, List.isEmpty_iff] at hnone
        rw [has, hnone.1]
        rfl
      obtain ⟨hr, hf, he⟩ := insert_confined h hn c extra hc
      simp only [hr]
      generalize g.insert [] c = x at hf he ⊢
      rcases x with ⟨_ | e, t, d⟩
      · exact ⟨rfl, ⟨Fits.enter hf.2.1 .emitting, hf.2.2⟩, .none rfl⟩
      · exact ⟨rfl, hf.2, he⟩
    · exact ⟨rfl, ⟨h.enter .emitting, hc⟩, .none rfl⟩

theorem emitNext_confined (h : g.Fits σ) : Confined Lapse σ g.emitNext := by
  intro c extra hc
  simp only [emitNext]
  cases ho : g.order with
  | nil =>
    have hd := h.enter .done
    rw [ho] at hd
    exact ⟨rfl, ⟨hd, hc⟩, .none rfl⟩
  | cons key rest =>
    obtain ⟨e, hfind, -⟩ := h.queued.find? (ho ▸ List.mem_cons_self : key ∈ g.order)
    have hfind' : Grouping.find? { g with order := rest } key = some e := hfind
    simp only [hfind', Control.setReg_padded extra hc h.reg]
    split
    · exact ⟨rfl, ⟨⟨h.reg, h.inputReg, h.queued.remove ho e⟩, hc.setReg ..⟩, .none rfl⟩
    · exact ⟨rfl, ⟨⟨h.reg, h.inputReg, h.queued.dequeue ho⟩, hc.setReg ..⟩, .none rfl⟩

theorem onInput_confined (h : g.Fits σ) {extra : List Value}
    {i j : Step Operator} (hi : Inside Lapse σ extra i j) :
    Inside Lapse σ extra (g.onInput i.signal i.control) (g.onInput j.signal j.control) := by
  obtain ⟨rfl, ⟨-, hc⟩, he⟩ := hi
  obtain ⟨signal, op, c⟩ := i
  simp only [Carries.onControl, onInput, Control.needsContinuation_padded]
  split
  · exact consume_confined h c extra hc
  · by_cases hn : c.needsContinuation = true
    · simp only [hn, ↓reduceIte]
      exact ⟨rfl, ⟨h, hc⟩, .none rfl⟩
    · simp only [hn]
      exact endInput_confined h c extra hc
  · exact ⟨rfl, ⟨h, hc⟩, he⟩

end Grouping

/-! ## Sort steps -/

namespace Sorting
variable {s : Sorting}

theorem chargeRow_confined (s : Sorting) (row : Value) : Confined Lapse σ (s.chargeRow row) := by
  unfold chargeRow
  split
  · exact fun _ extra hc => Control.charge_inside _ extra hc
  · exact fun _ _ hc => ⟨rfl, ⟨trivial, hc⟩, .none rfl⟩

theorem onInput_confined (h : s.Fits σ) {extra : List Value} {i j : Step Operator}
    (hi : Inside Lapse σ extra i j) :
    Inside Lapse σ extra (s.onInput i.signal i.control) (s.onInput j.signal j.control) := by
  obtain ⟨rfl, ⟨-, hc⟩, he⟩ := hi
  obtain ⟨signal, op, c⟩ := i
  simp only [Carries.onControl, onInput, Control.needsContinuation_padded]
  split
  · obtain ⟨hr, hf, he⟩ := s.chargeRow_confined (c.reg s.inputReg) c extra hc
    simp only [consume, Control.reg_padded extra hc h.inputReg, hr]
    generalize s.chargeRow (c.reg s.inputReg) c = x at hf he ⊢
    rcases x with ⟨_ | e, d⟩
    · exact ⟨rfl, ⟨{ h with }, hf.2⟩, .none rfl⟩
    · exact ⟨rfl, ⟨h, hf.2⟩, he⟩
  · by_cases hn : c.needsContinuation = true
    · simp only [hn, ↓reduceIte]
      exact ⟨rfl, ⟨h, hc⟩, .none rfl⟩
    · simp only [hn]
      exact ⟨rfl, ⟨{ h with }, hc⟩, .none rfl⟩
  · exact ⟨rfl, ⟨h, hc⟩, he⟩

theorem emitNext_confined (h : s.Fits σ) (rows : List Value) :
    Confined Lapse σ (s.emitNext rows) := by
  intro c extra hc
  cases rows with
  | nil => exact ⟨rfl, ⟨h, hc⟩, .none rfl⟩
  | cons row rest =>
    have hd : (c.release (s.cost row)).Offers σ := hc
    have hp := Control.setReg_padded extra hd h.reg row
    exact ⟨congrArg (Step.mk _ _) hp, ⟨{ h with }, hd.setReg ..⟩, .none rfl⟩

end Sorting

/-! ## Scans -/

namespace Scan
variable {s : Scan}

theorem yieldRow_confined (h : s.reg < σ.registers) (row : Value) :
    Confined Lapse σ (s.yieldRow row) := by
  intro c extra hc
  simp only [yieldRow]
  split
  · rw [Control.setReg_padded extra hc h]
    exact ⟨rfl, ⟨h, hc.setReg ..⟩, .none rfl⟩
  · rename_i d _
    split
    · exact ⟨rfl, ⟨h, hc⟩, .none rfl⟩
    · rename_i e hi
      refine ⟨rfl, ⟨h, hc⟩, .of_fault (.inr ?_) rfl⟩
      unfold DuplicateSet.inspect at hi
      split at hi
      · rename_i hv
        cases hi
        exact .duplicateInput hv
      · simp only at hi
        split at hi <;> cases hi
    · rename_i cost d _
      obtain ⟨hr, hf, he⟩ := Control.charge_inside cost extra hc
      simp only [hr]
      generalize c.charge cost = x at hf he ⊢
      rcases x with ⟨_ | e, d'⟩
      · simp only [Carries.onControl, Control.setReg_padded extra hf.2 h]
        exact ⟨rfl, ⟨h, hf.2.setReg ..⟩, .none rfl⟩
      · exact ⟨rfl, ⟨h, hf.2⟩, he⟩

theorem ask_confined (h : s.reg < σ.registers) (limit : Control → Except QueryError Nat)
    (hp : ∀ c extra, limit (c.padded extra) = limit c) (hl : ∀ c, Raises Setback (limit c))
    (request : Nat → FetchRequest) : Confined Lapse σ fun c => s.ask c (limit c) request := by
  intro c extra hc
  have he := (hl c).lapse
  simp only [ask, hp, Control.fetchDone_padded]
  split
  · exact ⟨rfl, ⟨h, hc⟩, .none rfl⟩
  · generalize limit c = x at he ⊢
    rcases x with e | n
    · exact ⟨rfl, ⟨h, hc⟩, he⟩
    · exact ⟨rfl, ⟨h, hc⟩, .none rfl⟩

theorem step_confined (h : s.reg < σ.registers) : Confined Lapse σ s.step := by
  have hb : Confined Lapse σ fun c => s.ask c (.ok c.config.batchLimit) s.stream.request :=
    ask_confined h (fun c => .ok c.config.batchLimit) (fun _ _ => rfl)
      (fun _ => .none rfl) _
  intro c extra hc
  unfold step
  split
  · exact ⟨rfl, ⟨h, hc⟩, .none rfl⟩
  · simp only [stepPlain]
    split
    · rename_i row stream _
      have hs : (c.release row.size).Offers σ := hc
      exact yieldRow_confined (s := { s with stream }) h row _ extra hs
    · split
      · exact ⟨rfl, ⟨h, hc⟩, .none rfl⟩
      · exact hb c extra hc
  · exact ask_confined h (fun c => .ok c.config.batchLimit) (fun _ _ => rfl)
      (fun _ => .none rfl) _ c extra hc
  · simp only [stepMerge]
    split
    · exact ⟨rfl, ⟨h, hc⟩, .none rfl⟩
    · split
      · rename_i row top _
        have hs : (c.release row.size).Offers σ := hc
        refine yieldRow_confined ?_ row _ extra hs
        split <;> exact h
      · split
        · exact ⟨rfl, ⟨h, hc⟩, .none rfl⟩
        · exact ask_confined h s.mergeLimit (fun _ _ => rfl)
            (fun c => s.mergeLimit_setback c) _ c extra hc

/-- A batch that was asked for is taken in, unless it is malformed or too large. -/
theorem deliver_setback {d : Control} {r : FetchRequest} (h : (s.step d).signal = .request r)
    (c : Control) (batch : Batch) : Raises Setback (s.deliver c batch) := by
  have hc := c.charge_setback (sizeOfRows batch.rows)
  unfold deliver
  split
  · unfold stagePlain
    split
    · rename_i he
      rwa [he] at hc
    · exact .none rfl
  · have hp := s.checkPhase1_setback batch
    unfold stagePhase1
    split
    · rename_i he
      rwa [he] at hp
    · split
      · rename_i he
        rwa [he] at hc
      · simp only
        split <;> exact .none rfl
  · rename_i hm
    unfold stageMerge
    split
    · -- without a feed to turn to the scan would not have asked
      rename_i hq
      simp only [step, hm, stepMerge, hq] at h
      cases h
    · simp only
      split
      · rename_i he
        rwa [he] at hc
      · exact addVirtualScans_setback _ _ _
  · exact .none rfl

/-! What a batch brings goes into no register. -/

/-- Nothing is said of failures. -/
abbrev Unsaid : QueryError → Prop := fun _ => True

theorem stagePlain_confined (h : s.reg < σ.registers) (batch : Batch) :
    Confined Unsaid σ (s.stagePlain · batch) := by
  intro c extra hc
  obtain ⟨hr, hf, -⟩ := Control.charge_inside (sizeOfRows batch.rows) extra hc
  simp only [stagePlain, hr]
  generalize c.charge (sizeOfRows batch.rows) = x at hf ⊢
  rcases x with ⟨_ | e, d⟩ <;> exact ⟨rfl, ⟨trivial, h, hf.2⟩, fun _ _ => trivial⟩

theorem addPartitions_reg (s : Scan) (info : Phase1Info) (batch : Batch) :
    (s.addPartitions info batch).reg = s.reg := by
  simp only [addPartitions, foldl_enqueue_eq]

theorem stagePhase1_confined (h : s.reg < σ.registers) (batch : Batch) :
    Confined Unsaid σ (s.stagePhase1 · batch) := by
  intro c extra hc
  obtain ⟨hr, hf, -⟩ := Control.charge_inside (sizeOfRows batch.rows) extra hc
  simp only [stagePhase1, hr]
  rcases s.checkPhase1 batch with e | info
  · exact ⟨rfl, ⟨trivial, h, hc⟩, fun _ _ => trivial⟩
  generalize c.charge (sizeOfRows batch.rows) = x at hf ⊢
  have hs : (s.addPartitions info batch).reg < σ.registers := addPartitions_reg s info batch ▸ h
  rcases x with ⟨_ | e, d⟩
  · simp only [Carries.onControl]
    split <;> exact ⟨rfl, ⟨trivial, hs, hf.2⟩, fun _ _ => trivial⟩
  · exact ⟨rfl, ⟨trivial, h, hf.2⟩, fun _ _ => trivial⟩

theorem addVirtualScans_confined (h : s.reg < σ.registers) (scans : List VirtualScan) :
    Confined Unsaid σ (s.addVirtualScans · scans) := by
  induction scans generalizing s with
  | nil => exact fun _ _ hc => ⟨rfl, ⟨trivial, h, hc⟩, fun _ _ => trivial⟩
  | cons scan rest ih =>
    intro c extra hc
    simp only [addVirtualScans]
    split
    · exact ⟨rfl, ⟨trivial, h, hc⟩, fun _ _ => trivial⟩
    · rename_i id _
      have hs : (s.enqueue (.ofVirtualScan id scan)).reg < σ.registers := h
      exact ih (s := { s.enqueue (.ofVirtualScan id scan) with nextVirtualId := idAfter id }) hs
        (c.emit _) extra hc

theorem stageMerge_confined (h : s.reg < σ.registers) (batch : Batch) :
    Confined Unsaid σ (s.stageMerge · batch) := by
  intro c extra hc
  obtain ⟨hr, hf, -⟩ := Control.charge_inside (sizeOfRows batch.rows) extra hc
  simp only [stageMerge, hr]
  split
  · exact ⟨rfl, ⟨trivial, h, hc⟩, fun _ _ => trivial⟩
  · generalize c.charge (sizeOfRows batch.rows) = x at hf ⊢
    rcases x with ⟨_ | e, d⟩
    · refine addVirtualScans_confined ?_ batch.virtualScans d extra hf.2
      exact h
    · exact ⟨rfl, ⟨trivial, h, hf.2⟩, fun _ _ => trivial⟩

theorem deliver_confined (h : s.reg < σ.registers) (batch : Batch) :
    Confined Unsaid σ (s.deliver · batch) := by
  unfold deliver
  split
  · exact stagePlain_confined h batch
  · exact stagePhase1_confined h batch
  · exact stageMerge_confined h batch
  · exact fun _ _ hc => ⟨rfl, ⟨trivial, h, hc⟩, fun _ _ => trivial⟩

end Scan

/-! ## The tree -/

namespace Operator
variable {op : Operator}

/-- A step of a select step, with its bounds known or not. -/
theorem step_confined (h : op.Fits σ) : Confined Lapse σ op.step := by
  induction op with
  | scan s =>
    intro c extra hc
    obtain ⟨hr, hf, he⟩ := Scan.step_confined h c extra hc
    simp only [step, hr]
    exact ⟨rfl, hf, he⟩
  | select s input ih =>
    intro c extra hc
    obtain ⟨hr, hf, he⟩ := Selection.begin_confined h.1 c extra hc
    simp only [step, hr]
    generalize s.begin c = x at hf he ⊢
    rcases x with done | ⟨b, t, d⟩
    · exact ⟨rfl, ⟨⟨hf.1, h.2⟩, hf.2⟩, he⟩
    · have hi := ih h.2 d extra hf.2.2
      obtain ⟨hr, ht, he⟩ := Selection.onInput_confined (b := b) hf.2.1 hi
      simp only [Carries.onControl, Sum.map_inr] at hr ⊢
      rw [hi.padded] at hr ⊢
      exact ⟨congrArg (Step.map _) hr, ⟨⟨ht.1, hi.fits.1⟩, ht.2⟩, he⟩
  | group g input ih =>
    intro c extra hc
    simp only [step]
    split
    · exact ⟨rfl, ⟨h, hc⟩, .none rfl⟩
    · obtain ⟨hr, hf, he⟩ := Grouping.emitNext_confined h.1 c extra hc
      exact ⟨congrArg (Step.map _) hr, ⟨⟨hf.1, h.2⟩, hf.2⟩, he⟩
    · have hi := ih h.2 c extra hc
      obtain ⟨hr, hg, he⟩ := Grouping.onInput_confined h.1 hi
      rw [hi.padded] at hr ⊢
      exact ⟨congrArg (Step.map _) hr, ⟨⟨hg.1, hi.fits.1⟩, hg.2⟩, he⟩
  | sort s input ih =>
    intro c extra hc
    simp only [step]
    split
    · rename_i rows _
      obtain ⟨hr, hf, he⟩ := Sorting.emitNext_confined h.1 rows c extra hc
      exact ⟨congrArg (Step.map _) hr, ⟨⟨hf.1, h.2⟩, hf.2⟩, he⟩
    · have hi := ih h.2 c extra hc
      obtain ⟨hr, hg, he⟩ := Sorting.onInput_confined h.1 hi
      rw [hi.padded] at hr ⊢
      exact ⟨congrArg (Step.map _) hr, ⟨⟨hg.1, hi.fits.1⟩, hg.2⟩, he⟩

theorem deliver_confined (h : op.Fits σ) (batch : Batch) :
    Confined Scan.Unsaid σ (op.deliver · batch) := by
  induction op with
  | scan s =>
    intro c extra hc
    obtain ⟨hr, hf, -⟩ := Scan.deliver_confined h batch c extra hc
    simp only [deliver]
    simp only at hr
    rw [hr]
    exact ⟨rfl, hf, fun _ _ => trivial⟩
  | select s input ih | group s input ih | sort s input ih =>
    intro c extra hc
    obtain ⟨hr, hf, -⟩ := ih h.2 c extra hc
    simp only [deliver]
    simp only at hr
    rw [hr]
    exact ⟨rfl, ⟨trivial, ⟨h.1, hf.2.1⟩, hf.2.2⟩, fun _ _ => trivial⟩

theorem pull_lapse (h : op.Fits σ) {c : Control} (hc : c.Offers σ) :
    Scoped.fits σ (op.pull c) ∧ Raises Lapse (op.pull c) := by
  induction hn : op.work using Nat.strongRecOn generalizing op c with
  | ind n ih =>
    obtain ⟨-, hf, he⟩ := step_confined h c [] hc
    rw [pull_eq]
    split
    · rename_i hm
      exact ih _ (hn ▸ step_work_lt (by rw [hm]; rfl)) hf.1 hf.2 rfl
    · exact ⟨hf, he⟩

end Operator
end ShardQuery
