import ShardQuery.Proofs.Merge.Discovery

/-!
Taking in a batch of the discovery phase. Either the report is in order and the budget holds all of
the rows, and then every partition gets its slice; or else nothing changes.
-/

namespace ShardQuery

theorem Control.charge_of_le {c : Control} {n : Nat} (h : c.ledger.used + n ≤ c.ledger.limit) :
    c.charge n = (none, { c with ledger := ⟨c.ledger.used + n, c.ledger.limit⟩ }) := by
  rw [charge, Ledger.charge_eq_ok_iff.2 ⟨h, rfl⟩]

theorem Control.charge_of_not_le {c : Control} {n : Nat}
    (h : ¬c.ledger.used + n ≤ c.ledger.limit) : ∃ e d, c.charge n = (some e, d) := by
  unfold charge
  split
  · rename_i hl
    exact absurd (Ledger.charge_eq_ok_iff.1 hl).1 h
  · exact ⟨_, _, rfl⟩

namespace Scan
variable {s t : Scan} {c d : Control} {batch : Batch} {info : Phase1Info}

/-! ## The report -/

theorem check_of_reported (h : s.Reported batch info) : s.checkPhase1 batch = .ok info := by
  have hcounts : checkCounts s.discovered (info.partitions.zip info.counts) = .ok () := by
    refine checkCounts_eq_ok.2 ⟨h.nonneg, ?_⟩
    rw [List.map_fst_zip (Nat.le_of_eq h.counts.symm)]
    exact ⟨h.nodup, h.new⟩
  have hmore : (info.inPhase1 && batch.continuation.isNone) = false := by
    cases hin : info.inPhase1 with
    | false => rfl
    | true => rw [Option.isNone_eq_false_iff.2 (h.more hin), Bool.and_false]
  simp [checkPhase1, h.phase1, h.counts, h.keys, hcounts, h.sum, hmore]

/-- A report is let pass just if it has a count and a key for each of its partitions, no count is
negative, the partitions differ and are new, the counts sum up to the rows, and a batch that is not
the last one says how to go on. -/
theorem checkPhase1_eq_ok : s.checkPhase1 batch = .ok info ↔
    batch.phase1 = some info ∧ info.counts.length = info.partitions.length ∧
      info.keys.length = info.partitions.length ∧ (∀ n ∈ info.counts, 0 ≤ n) ∧
      info.partitions.Nodup ∧ (∀ id ∈ info.partitions, id ∉ s.discovered) ∧
      info.counts.sum = batch.rows.length ∧
      (info.inPhase1 = true → batch.continuation.isSome = true) := by
  constructor
  · intro h
    have hr := reported_of_check h
    exact ⟨hr.phase1, hr.counts, hr.keys, hr.counts_nonneg, hr.nodup, hr.new, hr.sum, hr.more⟩
  · rintro ⟨hp, hc, hk, hn, hd, hnew, hs, hm⟩
    exact check_of_reported ⟨hp, hc, hk, fun r hr => hn _ (List.of_mem_zip hr).2, hd, hnew, hs, hm⟩

/-! ## The slices -/

theorem filterMap_partitionFeed (slices : List (Int × List Value × Option Bytes)) :
    slices.filterMap partitionFeed? =
      (slices.filter fun x => !x.2.1.isEmpty || x.2.2.isSome).map
        fun x => .ofPartition x.1 x.2.1 x.2.2 := by
  induction slices with
  | nil => rfl
  | cons x rest ih =>
    obtain ⟨id, rows, key⟩ := x
    rw [List.filterMap_cons, List.filter_cons, ih]
    cases rows <;> cases key <;> rfl

/-- What is so of a scan and its control once a batch was taken in: they are as before but for the
slices, one for each partition, and for what is said of the batch. -/
structure Staged (s : Scan) (c : Control) (batch : Batch) (info : Phase1Info) (t : Scan)
    (d : Control) : Prop where
  slices : ∃ slices : List (Int × List Value × Option Bytes),
    slices.map (·.1) = info.partitions ∧
    slices.map (fun x => (x.2.1.length : Int)) = info.counts ∧
    slices.map (·.2.2) = info.keys ∧
    slices.flatMap (·.2.1) = batch.rows ∧
    t.queue.toList.Perm (s.queue.toList ++
      (slices.filter fun x => !x.2.1.isEmpty || x.2.2.isSome).map
        fun x => .ofPartition x.1 x.2.1 x.2.2)
  scan : t = { s with
    queue := t.queue
    discovered := s.discovered ++ info.partitions
    phase1Continuation := batch.continuation
    rowsStaged := s.rowsStaged + batch.rows.length
    bytesStaged := s.bytesStaged + sizeOfRows batch.rows
    phase := if info.inPhase1 then s.phase else .merging }
  control : d = { c with
    ledger := ⟨c.ledger.used + sizeOfRows batch.rows, c.ledger.limit⟩
    events := if info.inPhase1 then c.events
      else .sortPhase1Complete t.discovered.length :: c.events }

theorem staged_of_check (h : s.checkPhase1 batch = .ok info)
    (hl : c.ledger.used + sizeOfRows batch.rows ≤ c.ledger.limit) :
    ∃ t d, s.stagePhase1 c batch = (none, t, d) ∧ s.Staged c batch info t d := by
  have hr := reported_of_check h
  obtain ⟨hids, hcounts, hkeys, hrows⟩ := cut_slices hr.counts hr.keys hr.counts_nonneg hr.sum
  have hqueue : (s.addPartitions info batch).queue.toList.Perm (s.queue.toList ++
      ((cut info.partitions info.counts info.keys batch.rows).filter
        fun x => !x.2.1.isEmpty || x.2.2.isSome).map fun x => .ofPartition x.1 x.2.1 x.2.2) := by
    rw [← filterMap_partitionFeed, addPartitions, foldl_enqueue_eq]
    exact (Heap.foldl_push_perm _ s.queue).trans List.perm_append_comm
  simp only [stagePhase1, h, Control.charge_of_le hl]
  cases hin : info.inPhase1 with
  | true =>
    refine ⟨_, _, rfl, ⟨_, hids, hcounts, hkeys, hrows, hqueue⟩, ?_, ?_⟩
    · simp only [addPartitions, foldl_enqueue_eq, hin, ↓reduceIte]
    · simp only [hin, ↓reduceIte]
  | false =>
    refine ⟨_, _, rfl, ⟨_, hids, hcounts, hkeys, hrows, hqueue⟩, ?_, ?_⟩
    · simp only [addPartitions, foldl_enqueue_eq, hin, Bool.false_eq_true, ↓reduceIte]
    · simp only [hin, Bool.false_eq_true, ↓reduceIte]
      rfl

/-- A batch is taken in just if its report is in order and the budget holds all of its rows. Then it
is taken in as a whole, and otherwise not at all. -/
theorem stagePhase1_exact (s : Scan) (c : Control) (batch : Batch) :
    ((s.stagePhase1 c batch).1 = none ↔ ∃ info,
      batch.phase1 = some info ∧ info.counts.length = info.partitions.length ∧
      info.keys.length = info.partitions.length ∧ (∀ n ∈ info.counts, 0 ≤ n) ∧
      info.partitions.Nodup ∧ (∀ id ∈ info.partitions, id ∉ s.discovered) ∧
      info.counts.sum = batch.rows.length ∧
      (info.inPhase1 = true → batch.continuation.isSome = true) ∧
      c.ledger.used + sizeOfRows batch.rows ≤ c.ledger.limit) ∧
    ((s.stagePhase1 c batch).1 = none → ∃ info, batch.phase1 = some info ∧
      s.Staged c batch info (s.stagePhase1 c batch).2.1 (s.stagePhase1 c batch).2.2) ∧
    ((s.stagePhase1 c batch).1 ≠ none → (s.stagePhase1 c batch).2.1 = s ∧
      (s.stagePhase1 c batch).2.2.ledger = c.ledger) := by
  cases hcheck : s.checkPhase1 batch with
  | error e =>
    have hs : s.stagePhase1 c batch = (some e, s, c) := by rw [stagePhase1, hcheck]
    rw [hs]
    have hne : some e ≠ none := Option.some_ne_none e
    refine ⟨iff_of_false hne ?_, fun h => absurd h hne, fun _ => ⟨rfl, rfl⟩⟩
    rintro ⟨info, hp, hc, hk, hn, hd, hnew, hsum, hm, -⟩
    rw [checkPhase1_eq_ok.2 ⟨hp, hc, hk, hn, hd, hnew, hsum, hm⟩] at hcheck
    cases hcheck
  | ok info =>
    obtain ⟨hp, hc, hk, hn, hd, hnew, hsum, hm⟩ := checkPhase1_eq_ok.1 hcheck
    by_cases hl : c.ledger.used + sizeOfRows batch.rows ≤ c.ledger.limit
    · obtain ⟨t, d, hs, hstaged⟩ := staged_of_check hcheck hl
      rw [hs]
      exact ⟨iff_of_true rfl ⟨info, hp, hc, hk, hn, hd, hnew, hsum, hm, hl⟩,
        fun _ => ⟨info, hp, hstaged⟩, fun h => (h rfl).elim⟩
    · obtain ⟨e, d, hd⟩ := Control.charge_of_not_le hl
      have hs : s.stagePhase1 c batch = (some e, s, d) := by simp only [stagePhase1, hcheck, hd]
      rw [hs]
      have hne : some e ≠ none := Option.some_ne_none e
      refine ⟨iff_of_false hne ?_, fun h => absurd h hne,
        fun _ => ⟨rfl, Control.ledger_of_refused hd⟩⟩
      rintro ⟨_, -, -, -, -, -, -, -, -, hfits⟩
      exact hl hfits

end Scan
end ShardQuery
