import ShardQuery.Operator.Tree
import ShardQuery.Proofs.Merge.Books
import ShardQuery.Proofs.Operator.Queueing

/-!
The books of the operators: what selections, groupings and sortings hold, and what a whole tree of
operators does.
-/

namespace ShardQuery

/-! ## What is read is free -/

namespace Column

theorem run_ledger (col : Column) (c : Control) : (col.run c).2.ledger = c.ledger := by
  cases col <;> rfl

theorem read_ledger (col : Column) (c : Control) : (col.read c).2.ledger = c.ledger := by
  have h := col.run_ledger c
  unfold read
  split <;> rename_i hr <;> rwa [hr] at h

theorem inputValue_ledger (input : Option Scalar) (c : Control) :
    (inputValue input c).2.ledger = c.ledger := by
  cases input with
  | none => rfl
  | some s =>
    have h : (s.run c).2.ledger = c.ledger := rfl
    unfold inputValue
    simp only
    split <;> rename_i hr <;> rwa [hr] at h

theorem fold_ledger (col : Column) (c : Control) : (col.fold c).2.ledger = c.ledger := by
  cases col with
  | scalar s => rfl
  | aggregate r input acc =>
    have h := inputValue_ledger input c
    unfold fold
    simp only
    split <;> rename_i hr <;> rwa [hr] at h

end Column

namespace Selection
variable {s : Selection} {c d : Control}

/-- A selection has no counts but what it holds itself. -/
instance : Holder Selection := ⟨groupMemory, fun _ => True⟩

theorem evalBound_ledger (clause : String) (bound : Option Scalar) (c : Control) :
    (evalBound clause bound c).2.ledger = c.ledger := by
  cases bound with
  | none => rfl
  | some e =>
    have h : (e.run c).2.ledger = c.ledger := rfl
    unfold evalBound
    simp only
    split <;> rename_i hr <;> rw [hr] at h
    · exact h
    · exact h
    · split
      · split <;> exact h
      · exact h

theorem evalBounds_ledger (s : Selection) (c : Control) :
    (s.evalBounds c).2.ledger = c.ledger := by
  unfold evalBounds
  split
  · rfl
  · have ho := evalBound_ledger "OFFSET" s.offset c
    split <;> rename_i hr <;> rw [hr] at ho
    · exact ho
    · rename_i d
      have hl := evalBound_ledger "LIMIT" s.limit d
      split <;> rename_i hr <;> rw [hr] at hl <;> exact hl.trans ho

theorem readColumns_ledger (cols : List Column) (c : Control) :
    (readColumns cols c).2.ledger = c.ledger := by
  induction cols generalizing c with
  | nil => rfl
  | cons col rest ih =>
    have h := col.read_ledger c
    unfold readColumns
    split <;> rename_i hr <;> rw [hr] at h
    · exact h
    · rename_i d
      have hi := ih d
      split <;> rename_i hs <;> rw [hs] at hi <;> exact hi.trans h

theorem begin_inl {r : Step Selection} (h : s.begin c = .inl r) :
    Booked c s.groupMemory r.state r.control := by
  have hb := s.evalBounds_ledger c
  unfold begin at h
  split at h
  · cases h
    exact .of_eq rfl trivial rfl
  · split at h <;> rename_i hr <;> rw [hr] at hb
    · cases h
      exact .of_eq hb trivial rfl
    · simp only at h
      split at h
      · cases h
        exact .of_eq hb trivial rfl
      · cases h

theorem begin_inr {t : Selection} {b : Bounds} (h : s.begin c = .inr (b, t, d)) :
    d.ledger = c.ledger ∧ t.groupMemory = s.groupMemory := by
  have hb := s.evalBounds_ledger c
  unfold begin at h
  split at h
  · cases h
  · split at h <;> rename_i hr <;> rw [hr] at hb
    · cases h
    · simp only at h
      split at h
      · cases h
      · cases h
        exact ⟨hb, rfl⟩

theorem emit_booked (s : Selection) (b : Bounds) (row : Value) (c : Control) :
    Booked c s.groupMemory (s.emit b row c).state (s.emit b row c).control := by
  unfold emit
  split <;> exact .of_eq rfl trivial rfl

theorem project_booked (s : Selection) (b : Bounds) (c : Control) :
    Booked c s.groupMemory (s.project b c).state (s.project b c).control := by
  unfold project
  split
  · exact emit_booked ..
  · have h := readColumns_ledger (s.columns.take s.names.length) c
    split <;> rename_i hr <;> rw [hr] at h
    · exact .of_eq h trivial rfl
    · exact (emit_booked ..).after (.of_eq h _)

/-- What is folded into the aggregates is charged column by column. -/
theorem foldRow_settles (cols : List Column) (memory : Nat) (c : Control) :
    c.Settles (foldRow cols memory c).2.2.2 memory (foldRow cols memory c).2.2.1 := by
  induction cols generalizing memory c with
  | nil => exact .of_eq rfl _
  | cons col rest ih =>
    have h := col.fold_ledger c
    unfold foldRow
    split <;> rename_i hr <;> rw [hr] at h
    · exact .of_eq h _
    · rename_i grown col d
      have hd : c.Settles d memory memory := .of_eq h _
      split <;> rename_i hg <;> split at hg
      · cases hg
      · exact hd.trans (.of_eq (Control.ledger_of_refused hg) _)
      · rename_i hz
        cases hg
        rw [hz]
        exact hd.trans (ih memory d)
      · rename_i e _
        exact hd.trans ((Control.settles_charge hg memory).trans (ih (memory + grown) e))

theorem finishGroup_booked (s : Selection) (key : List Value) (c : Control) :
    Booked c s.groupMemory (s.finishGroup key c).2.1 (s.finishGroup key c).2.2 := by
  unfold finishGroup
  split
  · exact .of_eq rfl trivial rfl
  · exact .of_release (Nat.zero_add _).symm (.of_eq rfl trivial rfl)

theorem foldAndEmit_booked (s : Selection) (b : Bounds) (row : Option Value) (c : Control) :
    Booked c s.groupMemory (s.foldAndEmit b row c).state (s.foldAndEmit b row c).control := by
  have h := foldRow_settles s.aggregates s.groupMemory c
  unfold foldAndEmit
  simp only
  split
  · exact ⟨trivial, h⟩
  · exact (emit_booked ..).after h
  · exact ⟨trivial, h⟩

theorem groupRow_booked (s : Selection) (b : Bounds) (c : Control) :
    Booked c s.groupMemory (s.groupRow b c).state (s.groupRow b c).control := by
  have h := readColumns_ledger s.columns c
  unfold groupRow
  simp only
  split <;> rename_i hr <;> rw [hr] at h
  · exact .of_eq h trivial rfl
  · rename_i key d
    have hd : c.Settles d s.groupMemory s.groupMemory := .of_eq h _
    split
    · exact (foldAndEmit_booked ..).after hd
    · rename_i current _
      split
      · exact (foldAndEmit_booked ..).after hd
      · have hf := finishGroup_booked { s with sawInput := true, current := none } current d
        split <;> rename_i he <;> rw [he] at hf
        · exact hf.after hd
        · exact (foldAndEmit_booked ..).after (hd.trans hf.settles)

theorem endGroups_booked (s : Selection) (b : Bounds) (gb : Nat) (c : Control) :
    Booked c s.groupMemory (s.endGroups b gb c).state (s.endGroups b gb c).control := by
  unfold endGroups
  split
  · rename_i current _
    have hf := finishGroup_booked { s with current := none } current c
    split <;> rename_i he <;> rw [he] at hf
    · exact ⟨trivial, hf.settles⟩
    · exact (emit_booked ..).after hf.settles
  · split
    · have hf := finishGroup_booked s [] c
      split <;> rename_i he <;> rw [he] at hf
      · exact ⟨trivial, hf.settles⟩
      · exact (emit_booked ..).after hf.settles
    · exact .of_eq rfl trivial rfl

theorem onInput_booked (s : Selection) (b : Bounds) (signal : Signal) (c : Control) :
    Booked c s.groupMemory (s.onInput b signal c).state (s.onInput b signal c).control := by
  unfold onInput
  split
  · exact project_booked ..
  · exact groupRow_booked ..
  · split
    · exact .of_eq rfl trivial rfl
    · split
      · exact .of_eq rfl trivial rfl
      · exact endGroups_booked ..
  · exact .of_eq rfl trivial rfl

end Selection

namespace Sorting
variable {s : Sorting} {c d : Control}

/-- A sorting that counts the bytes of the rows it holds. -/
def Exact (s : Sorting) : Prop := s.charged = (s.rows.map s.cost).sum

instance : Holder Sorting := ⟨charged, Exact⟩

theorem consume_booked (h : s.Exact) (c : Control) :
    Booked c s.charged (s.consume c).state (s.consume c).control := by
  unfold consume chargeRow
  simp only
  split <;> rename_i hr
  · refine .of_eq ?_ h rfl
    split at hr
    · exact Control.ledger_of_refused hr
    · cases hr
  · rename_i d
    have he (row : Value) :
        Exact { s with arrived := row :: s.arrived, charged := s.charged + s.cost row } := by
      change s.charged + s.cost row = ((row :: s.rows).map s.cost).sum
      rw [List.map_cons, List.sum_cons, ← h, Nat.add_comm]
    split at hr
    · exact .of_charge hr rfl (he _) rfl
    · rename_i hm
      cases hr
      refine .of_eq rfl (he _) ?_
      change s.charged + s.cost _ = s.charged
      simp [cost, hm]

theorem endInput_booked (h : s.Exact) (hs : s.sorted = none) (c : Control) :
    Booked c s.charged (s.endInput c).state (s.endInput c).control := by
  refine .of_eq rfl ?_ rfl
  change s.charged = ((sortRows s.specs s.arrived.reverse).map s.cost).sum
  have hp : (sortRows s.specs s.arrived.reverse).Perm s.rows := by
    rw [rows, hs, Option.getD_none, List.append_nil]
    exact (List.mergeSort_perm ..).trans s.arrived.reverse_perm
  rw [(hp.map s.cost).sum_nat, h]

theorem onInput_booked (h : s.Exact) (hs : s.sorted = none) (signal : Signal) (c : Control) :
    Booked c s.charged (s.onInput signal c).state (s.onInput signal c).control := by
  unfold onInput
  split
  · exact consume_booked h c
  · split
    · exact .of_eq rfl h rfl
    · exact endInput_booked h hs c
  · exact .of_eq rfl h rfl

theorem emitNext_booked {rows : List Value} (h : s.Exact) (hs : s.sorted = some rows)
    (c : Control) : Booked c s.charged (s.emitNext rows c).state (s.emitNext rows c).control := by
  cases rows with
  | nil => exact .of_eq rfl h rfl
  | cons row rest =>
    have hc : s.charged = ((s.arrived ++ rest).map s.cost).sum + s.cost row := by
      rw [h, Sorting.rows, hs]
      simp only [Option.getD_some, List.map_append, List.map_cons, List.sum_append, List.sum_cons]
      omega
    have he : Exact { s with sorted := some rest, charged := s.charged - s.cost row } := by
      change s.charged - s.cost row = ((s.arrived ++ rest).map s.cost).sum
      omega
    have hr : s.charged = (s.charged - s.cost row) + s.cost row := by omega
    exact .of_release hr (.of_eq rfl he rfl)

end Sorting

namespace Grouping
variable {g : Grouping} {c d : Control} {key : List Value} {es : List GroupEntry}

/-- A grouping that counts the bytes of its groups, and finds them. -/
structure Exact (g : Grouping) : Prop where
  charged : g.charged = (g.groups.map (·.memory)).sum
  queued : g.Queued

instance : Holder Grouping := ⟨charged, Exact⟩

theorem settles_of_chargeKey (h : g.chargeKey key c = (none, d)) (own : Nat) :
    c.Settles d own (own + g.keyMemory key) := by
  unfold chargeKey at h
  split at h
  · exact Control.settles_charge h own
  · rename_i hm
    cases h
    have hk : g.keyMemory key = 0 := by simp [keyMemory, hm]
    rw [hk]
    exact .of_eq rfl own

theorem ledger_of_refusedKey {e : QueryError} (h : g.chargeKey key c = (some e, d)) :
    d.ledger = c.ledger := by
  unfold chargeKey at h
  split at h
  · exact Control.ledger_of_refused h
  · cases h

theorem update_of_absent {f : GroupEntry → GroupEntry} (h : ∀ e ∈ es, sameGroup e.key key = false) :
    update key f es = es := by
  refine (List.map_congr_left fun e he => ?_).trans (List.map_id es)
  simp [h e he]

/-- Bytes that are added to a group are added once, because there is one such group. -/
theorem memory_update (hd : (es.map (·.key)).Pairwise fun a b => sameGroup a b = false)
    (hk : ∃ e ∈ es, sameGroup e.key key = true) (n : Nat) :
    ((update key (fun e => { e with memory := e.memory + n }) es).map (·.memory)).sum =
      (es.map (·.memory)).sum + n := by
  induction es with
  | nil => simp at hk
  | cons e rest ih =>
    rw [List.map_cons, List.pairwise_cons] at hd
    have hcons (f : GroupEntry → GroupEntry) : update key f (e :: rest) =
        (if sameGroup e.key key then f e else e) :: update key f rest := rfl
    rw [hcons]
    cases he : sameGroup e.key key with
    | true =>
      have hrest : ∀ x ∈ rest, sameGroup x.key key = false := by
        intro x hx
        cases hs : sameGroup x.key key with
        | false => rfl
        | true =>
          have hn := hd.1 x.key (List.mem_map_of_mem hx)
          rw [sameGroup_trans he (sameGroup_symm hs)] at hn
          cases hn
      simp only [↓reduceIte, update_of_absent hrest, List.map_cons, List.sum_cons]
      omega
    | false =>
      obtain ⟨x, hx, hs⟩ := hk
      rcases List.mem_cons.1 hx with rfl | hx
      · rw [he] at hs
        cases hs
      · simp only [Bool.false_eq_true, ↓reduceIte, List.map_cons, List.sum_cons]
        rw [ih hd.2 ⟨x, hx, hs⟩]
        omega

/-- New accumulators make no difference to the books. -/
theorem Exact.merge (h : g.Exact) (key : List Value) (accumulators : List Accumulator) :
    Exact { g with groups := update key (fun e => { e with accumulators }) g.groups } := by
  refine ⟨?_, h.queued.update (f := fun e => { e with accumulators }) (fun _ => rfl) _⟩
  have hm : (update key (fun e => { e with accumulators }) g.groups).map (·.memory) =
      g.groups.map (·.memory) := map_update fun _ => rfl
  exact h.charged.trans (congrArg List.sum hm.symm)

/-- A group that is there grows. -/
theorem Exact.grow (h : g.Exact) (hk : ∃ e ∈ g.groups, sameGroup e.key key = true) (n : Nat) :
    Exact { g with
      groups := update key (fun e => { e with memory := e.memory + n }) g.groups
      charged := g.charged + n } := by
  refine ⟨?_, h.queued.update (f := fun e => { e with memory := e.memory + n }) (fun _ => rfl) _⟩
  change g.charged + n = _
  rw [h.charged, memory_update h.queued.distinct hk]

theorem Exact.added (h : g.Exact) (hn : g.has key = false) : (g.added key).Exact := by
  refine ⟨?_, h.queued.added hn⟩
  simp only [Grouping.added, h.charged, List.map_append, List.map_cons, List.map_nil,
    List.sum_append, List.sum_singleton]

theorem insert_booked (h : g.Exact) (hn : g.has key = false) (c : Control) :
    Booked c g.charged (g.insert key c).2.1 (g.insert key c).2.2 := by
  unfold Grouping.insert
  split <;> rename_i hr
  · exact .of_eq (ledger_of_refusedKey hr) h rfl
  · exact ⟨h.added hn, settles_of_chargeKey hr _⟩

theorem ensure_booked (h : g.Exact) (key : List Value) (c : Control) :
    Booked c g.charged (g.ensure key c).2.1 (g.ensure key c).2.2 := by
  unfold ensure
  split
  · exact .of_eq rfl h rfl
  · rename_i hn
    exact insert_booked h (Bool.not_eq_true _ ▸ hn) c

theorem streamRow_booked (h : g.Exact) (key : List Value) (c : Control) :
    Booked c g.charged (g.streamRow key c).state (g.streamRow key c).control := by
  unfold streamRow
  split
  · exact .of_eq rfl h rfl
  · rename_i hn
    have hb := insert_booked h (Bool.not_eq_true _ ▸ hn) c
    split <;> rename_i hr <;> rw [hr] at hb
    · exact hb
    · exact ⟨hb.exact, hb.settles.trans (.of_eq rfl _)⟩

theorem foldRow_booked (h : g.Exact) (key partials : List Value) (c : Control) :
    Booked c g.charged (g.foldRow key partials c).state (g.foldRow key partials c).control := by
  unfold foldRow
  split
  · exact .of_eq rfl h rfl
  · rename_i e hf
    rcases mergeAll e.accumulators partials with ⟨failure, accumulators, grown⟩
    simp only
    have hx := h.merge key accumulators
    split
    · exact .of_eq rfl hx rfl
    · split
      · exact .of_eq rfl hx rfl
      · split <;> rename_i hr
        · exact .of_eq (Control.ledger_of_refused hr) hx rfl
        · refine .of_charge hr rfl (hx.grow ?_ grown) rfl
          have hs : sameGroup e.key key = true := by simpa using List.find?_some hf
          refine ⟨_, List.mem_map_of_mem (List.mem_of_find?_eq_some hf), ?_⟩
          simp [hs]

theorem consume_booked (h : g.Exact) (c : Control) :
    Booked c g.charged (g.consume c).state (g.consume c).control := by
  unfold consume
  split
  · split
    · exact .of_eq rfl h rfl
    · rename_i key _
      split
      · exact streamRow_booked h key c
      · have he := ensure_booked h key c
        split <;> rename_i hr <;> rw [hr] at he
        · exact he
        · exact (foldRow_booked he.exact ..).after he.settles
  · exact .of_eq rfl h rfl

/-- Another phase makes no difference to the books. -/
theorem Exact.enter (h : g.Exact) (phase : GroupPhase) : Exact { g with phase } :=
  ⟨h.charged, h.queued.distinct, h.queued.order, h.queued.streaming⟩

theorem endInput_booked (h : g.Exact) (c : Control) :
    Booked c g.charged (g.endInput c).state (g.endInput c).control := by
  unfold endInput
  split
  · exact .of_eq rfl (h.enter .done) rfl
  · split
    · rename_i hnone
      have hn : g.has [] = false := by
        rw [Bool.and_eq_true, List.isEmpty_iff] at hnone
        rw [has, hnone.1]
        rfl
      have hb := insert_booked h hn c
      split <;> rename_i hr <;> rw [hr] at hb
      · exact hb
      · exact ⟨hb.exact.enter .emitting, hb.settles⟩
    · exact .of_eq rfl (h.enter .emitting) rfl

theorem emitNext_booked (h : g.Exact) (c : Control) :
    Booked c g.charged (g.emitNext c).state (g.emitNext c).control := by
  cases ho : g.order with
  | nil =>
    have he : g.emitNext c = ⟨.dry, { g with phase := .done }, c⟩ := by simp only [emitNext, ho]
    rw [he]
    exact .of_eq rfl (h.enter .done) rfl
  | cons key rest =>
    obtain ⟨before, waiting, hg, hw⟩ := h.queued.exists_waiting
    obtain ⟨e, after, rfl, rfl, rfl⟩ := List.map_eq_cons_iff.1 (hw.symm.trans ho)
    have hc : g.charged = ((before ++ after).map (·.memory)).sum + e.memory := by
      rw [h.charged, hg]
      simp only [List.map_append, List.map_cons, List.sum_append, List.sum_cons]
      omega
    rw [h.queued.emitNext_eq hg ho]
    split
    · have hq := h.queued.remove ho e
      simp only [removed, h.queued.eraseP_key hg] at hq
      have hr : g.charged = (g.charged - e.memory) + e.memory := by omega
      refine .of_release hr (.of_eq rfl ⟨?_, hq⟩ rfl)
      exact (congrArg (· - e.memory) hc).trans (Nat.add_sub_cancel ..)
    · exact .of_eq rfl ⟨h.charged, h.queued.dequeue ho⟩ rfl

theorem onInput_booked (h : g.Exact) (signal : Signal) (c : Control) :
    Booked c g.charged (g.onInput signal c).state (g.onInput signal c).control := by
  unfold onInput
  split
  · exact consume_booked h c
  · split
    · exact .of_eq rfl h rfl
    · exact endInput_booked h c
  · exact .of_eq rfl h rfl

end Grouping

namespace Operator

/-- Operators whose counts are right: a feed counts the bytes of its rows, a sorting those of the
rows it holds, and a grouping those of its groups. -/
def Exact : Operator → Prop
  | .scan s => s.Exact
  | .select _ input => input.Exact
  | .group g input => g.Exact ∧ input.Exact
  | .sort s input => s.Exact ∧ input.Exact

instance : Holder Operator := ⟨held, Exact⟩

variable {op : Operator} {c d : Control}

/-- A step keeps the books. -/
theorem step_booked (h : op.Exact) (c : Control) :
    Booked c op.held (op.step c).state (op.step c).control := by
  induction op generalizing c with
  | scan s =>
    obtain ⟨hs, ho⟩ := Scan.step_booked h c
    exact ⟨hs, ho⟩
  | select s input ih =>
    unfold step
    split
    · rename_i hb
      obtain ⟨-, hs⟩ := Selection.begin_inl hb
      exact ⟨h, hs.before input.held⟩
    · rename_i b t d hb
      obtain ⟨hd, ht⟩ := Selection.begin_inr hb
      obtain ⟨hi, hs⟩ := ih h d
      obtain ⟨-, ho⟩ := t.onInput_booked b (input.step d).signal (input.step d).control
      refine ⟨hi, .trans (.of_eq hd _) (.trans (hs.beside s.groupMemory) ?_)⟩
      rw [← ht]
      exact ho.before _
  | group g input ih =>
    unfold step
    split
    · exact .of_eq rfl h rfl
    · obtain ⟨hg, hs⟩ := Grouping.emitNext_booked h.1 c
      exact ⟨⟨hg, h.2⟩, hs.before input.held⟩
    · obtain ⟨hi, hs⟩ := ih h.2 c
      obtain ⟨hg, ho⟩ := Grouping.onInput_booked h.1 (input.step c).signal (input.step c).control
      exact ⟨⟨hg, hi⟩, .trans (hs.beside g.charged) (ho.before _)⟩
  | sort s input ih =>
    unfold step
    split
    · rename_i rows hr
      obtain ⟨hg, hs⟩ := Sorting.emitNext_booked h.1 hr c
      exact ⟨⟨hg, h.2⟩, hs.before input.held⟩
    · rename_i hn
      obtain ⟨hi, hs⟩ := ih h.2 c
      obtain ⟨hg, ho⟩ :=
        Sorting.onInput_booked h.1 hn (input.step c).signal (input.step c).control
      exact ⟨⟨hg, hi⟩, .trans (hs.beside s.charged) (ho.before _)⟩

/-- So does a batch that comes in, or is refused. -/
theorem deliver_booked (h : op.Exact) (c : Control) (batch : Batch) :
    Booked c op.held (op.deliver c batch).2.1 (op.deliver c batch).2.2 := by
  induction op with
  | scan s =>
    obtain ⟨hs, ho⟩ := Scan.deliver_booked h c batch
    exact ⟨hs, ho⟩
  | select s input ih =>
    obtain ⟨hi, hs⟩ := ih h
    exact ⟨hi, hs.beside s.groupMemory⟩
  | group g input ih =>
    obtain ⟨hi, hs⟩ := ih h.2
    exact ⟨⟨h.1, hi⟩, hs.beside g.charged⟩
  | sort s input ih =>
    obtain ⟨hi, hs⟩ := ih h.2
    exact ⟨⟨h.1, hi⟩, hs.beside s.charged⟩

/-- Operators that are closed have given back what they held, and nothing else. -/
theorem close_settles (op : Operator) (c : Control) : c.Settles (op.close c).2 op.held 0 := by
  induction op generalizing c with
  | scan s => exact Control.settles_release c s.held 0
  | select s input ih =>
    exact .trans (Control.settles_release c s.groupMemory input.held) (ih _)
  | group g input ih =>
    exact .trans (Control.settles_release c g.charged input.held) (ih _)
  | sort s input ih =>
    exact .trans (Control.settles_release c s.charged input.held) (ih _)

/-- While an operator takes a step or is closed, it gives back so many bytes to the ledger as it is
then. -/
inductive Releases : Operator → Control → Ledger → Nat → Prop where
  | streamed {s : Scan} {row : Value} {feed : Feed} {c : Control} (hp : s.phase = .plain)
    (hr : s.stream.pop? = some (row, feed)) : Releases (.scan s) c c.ledger row.size
  | merged {s : Scan} {top feed : Feed} {queue : Heap Feed} {row : Value} {c : Control}
    (hp : s.phase = .merging) (hq : s.queue.pop? (Feed.compare s.specs) = some (top, queue))
    (hr : top.pop? = some (row, feed)) : Releases (.scan s) c c.ledger row.size
  | closedScan {s : Scan} {c : Control} : Releases (.scan s) c c.ledger s.held
  /-- The input of a selection takes its step first. -/
  | selected {s t : Selection} {input : Operator} {b : Bounds} {c d : Control} {l : Ledger}
    {n : Nat} (hb : s.begin c = .inr (b, t, d)) (h : Releases input d l n) :
    Releases (.select s input) c l n
  | finished {s t : Selection} {input : Operator} {b : Bounds} {c d : Control}
    (hb : s.begin c = .inr (b, t, d)) :
    Releases (.select s input) c (input.step d).control.ledger t.groupMemory
  | closedSelect {s : Selection} {input : Operator} {c : Control} :
    Releases (.select s input) c c.ledger s.groupMemory
  | closedSelected {s : Selection} {input : Operator} {c : Control} {l : Ledger} {n : Nat}
    (h : Releases input (s.close c).2 l n) : Releases (.select s input) c l n
  | grouped {g : Grouping} {input : Operator} {c : Control} {l : Ledger} {n : Nat}
    (hp : g.phase = .consuming) (h : Releases input c l n) : Releases (.group g input) c l n
  | produced {g : Grouping} {input : Operator} {key : List Value} {rest : List (List Value)}
    {e : GroupEntry} {c : Control} (hp : g.phase = .emitting) (ho : g.order = key :: rest)
    (he : g.find? key = some e) : Releases (.group g input) c c.ledger e.memory
  | closedGroup {g : Grouping} {input : Operator} {c : Control} :
    Releases (.group g input) c c.ledger g.charged
  | closedGrouped {g : Grouping} {input : Operator} {c : Control} {l : Ledger} {n : Nat}
    (h : Releases input (g.close c).2 l n) : Releases (.group g input) c l n
  | sorted {s : Sorting} {input : Operator} {c : Control} {l : Ledger} {n : Nat}
    (hs : s.sorted = none) (h : Releases input c l n) : Releases (.sort s input) c l n
  | handed {s : Sorting} {input : Operator} {row : Value} {rest : List Value} {c : Control}
    (hs : s.sorted = some (row :: rest)) : Releases (.sort s input) c c.ledger (s.cost row)
  | closedSort {s : Sorting} {input : Operator} {c : Control} :
    Releases (.sort s input) c c.ledger s.charged
  | closedSorted {s : Sorting} {input : Operator} {c : Control} {l : Ledger} {n : Nat}
    (h : Releases input (s.close c).2 l n) : Releases (.sort s input) c l n

/-- No more is given back than is charged. -/
theorem Releases.le {l : Ledger} {n others : Nat} (hr : op.Releases c l n) (h : op.Exact)
    (hu : c.ledger.used = others + op.held) : n ≤ l.used := by
  induction hr generalizing others with
  | streamed hp hr =>
    obtain ⟨-, hm⟩ := Feed.Exact.pop (Scan.Exact.stream h) hr
    simp only [held, Scan.held] at hu
    omega
  | merged hp hq hr =>
    obtain ⟨htop, -, hh⟩ := Scan.Exact.unqueue h hq
    obtain ⟨-, hm⟩ := htop.pop hr
    simp only [held] at hu
    omega
  | closedScan =>
    simp only [held] at hu
    omega
  | @selected s t input b c d l n hb hr ih =>
    obtain ⟨hd, -⟩ := Selection.begin_inr hb
    have hd' : d.ledger.used = others + s.groupMemory + input.held := by
      rw [hd, hu, held]
      omega
    exact ih h hd'
  | @finished s t input b c d hb =>
    obtain ⟨hd, ht⟩ := Selection.begin_inr hb
    have hi := @step_booked input h d
    have := hi.settles (others + s.groupMemory) (by
      rw [hd, hu, held]
      omega)
    omega
  | closedSelect =>
    simp only [held] at hu
    omega
  | @closedSelected s input c l n hr ih =>
    refine ih h (Control.settles_release c s.groupMemory input.held others ?_)
    exact hu
  | @grouped g input c l n hp hr ih =>
    have hc : c.ledger.used = others + g.charged + input.held := by
      rw [hu, held]
      omega
    exact ih h.2 hc
  | @produced g input key rest e c hp ho he =>
    have hc := h.1.charged
    obtain ⟨before, after, hg⟩ := List.append_of_mem (List.mem_of_find?_eq_some he)
    rw [hg, List.map_append, List.map_cons, List.sum_append, List.sum_cons] at hc
    simp only [held] at hu
    omega
  | closedGroup =>
    simp only [held] at hu
    omega
  | @closedGrouped g input c l n hr ih =>
    exact ih h.2 (Control.settles_release c g.charged input.held others hu)
  | @sorted s input c l n hs hr ih =>
    have hc : c.ledger.used = others + s.charged + input.held := by
      rw [hu, held]
      omega
    exact ih h.2 hc
  | @handed s input row rest c hs =>
    have hc : s.charged = _ := h.1
    rw [Sorting.rows, hs, Option.getD_some, List.map_append, List.sum_append, List.map_cons,
      List.sum_cons] at hc
    simp only [held] at hu
    omega
  | closedSort =>
    simp only [held] at hu
    omega
  | @closedSorted s input c l n hr ih =>
    exact ih h.2 (Control.settles_release c s.charged input.held others hu)

end Operator
end ShardQuery
