import ShardQuery.Proofs.Merge.Chains

/-!
How many rows a merge asks a partition for: as many of average size as the budget has room for. The
average is kept as two counts, and every batch that a scan takes in is added to both.
-/

namespace ShardQuery

/-- The average size of some rows. It is at least one byte. -/
def averageSize (rows : List Value) : Nat :=
  if rows.length = 0 then 1 else max (sizeOfRows rows / rows.length) 1

theorem averageSize_pos (rows : List Value) : 0 < averageSize rows := by
  unfold averageSize
  split
  · exact Nat.one_pos
  · exact Nat.le_max_right ..

/-- For how many rows of average size there is room below a limit, beside what is held. -/
def room (limit held : Nat) (rows : List Value) : Nat := (limit - held) / averageSize rows

/-- Rows for which there is room fit the budget. -/
theorem room_fits {limit held n : Nat} {rows : List Value} (hn : n ≤ room limit held rows)
    (hpos : 0 < n) : held + n * averageSize rows ≤ limit := by
  have hfits : n * averageSize rows ≤ limit - held :=
    (Nat.le_div_iff_mul_le (averageSize_pos rows)).1 hn
  have := Nat.mul_pos hpos (averageSize_pos rows)
  omega

namespace Scan

/-- A merge cannot go on before it has rows for the feed on top of its queue. -/
structure Wants (s : Scan) (top : Feed) : Prop where
  merging : s.phase = .merging
  popped : ∃ queue, s.queue.pop? (Feed.compare s.specs) = some (top, queue)
  empty : top.rows = []
  remote : top.hasRemote = true

/-- A scan of sorted partitions has counted the rows of some batches. -/
structure Counts (batches : List Batch) (s : Scan) : Prop where
  partitions : s.distribution = .allPartitions
  phase : s.phase ≠ .plain
  rows : s.rowsStaged = (batches.flatMap (·.rows)).length
  bytes : s.bytesStaged = sizeOfRows (batches.flatMap (·.rows))

variable {s t : Scan} {c d e : Control} {batches : List Batch} {batch : Batch} {top : Feed}
  {r : FetchRequest}

/-- Where a merge wants rows it asks for them or fails, and stays as it is. -/
theorem Wants.step (h : s.Wants top) (hc : c.fetchDone = false) :
    s.step c =
      ⟨match s.mergeLimit c with
        | .ok limit => .request (top.request limit)
        | .error e => .fail e, s, c⟩ := by
  obtain ⟨queue, hq⟩ := h.popped
  have hpop : top.pop? = none := by rw [Feed.pop?, h.empty]
  simp only [Scan.step, h.merging, stepMerge, hq, hpop, h.remote, Bool.not_true, Bool.false_eq_true,
    ↓reduceIte, ask, hc]
  cases s.mergeLimit c <;> rfl

/-- A scan with more than one stream asks for partitions to merge, or it is a merge that wants
rows. -/
theorem discovers_or_wants (hp : s.phase ≠ .plain) (h : (s.step c).signal = .request r) :
    (s.phase = .discovering ∧ r.target = .sortPhase1) ∨
      ∃ top, s.Wants top ∧ r.target = top.target := by
  unfold Scan.step at h
  split at h
  · cases h
  · rename_i hplain
    exact (hp hplain).elim
  · rename_i hd
    obtain ⟨n, rfl⟩ := request_of_ask h
    exact .inl ⟨hd, rfl⟩
  · rename_i hm
    unfold stepMerge at h
    split at h
    · cases h
    · rename_i top queue hq
      simp only at h
      split at h
      · exact (not_request_of_yieldRow h).elim
      · rename_i hpop
        split at h
        · cases h
        · rename_i hr
          obtain ⟨n, rfl⟩ := request_of_ask h
          have hempty : top.rows = [] := by
            unfold Feed.pop? at hpop
            split at hpop
            · assumption
            · cases hpop
          exact .inr ⟨top, ⟨hm, ⟨queue, hq⟩, hempty, by simpa using hr⟩, rfl⟩

namespace Counts

theorem bytesPerRow (h : s.Counts batches) :
    s.bytesPerRow = averageSize (batches.flatMap (·.rows)) := by
  rw [Scan.bytesPerRow, h.rows, h.bytes]
  rfl

/-- A merge of partitions asks for as many rows as there is room for, or it gives up. -/
theorem mergeLimit (h : s.Counts batches) (c : Control) :
    s.mergeLimit c =
      if room c.ledger.limit s.duplicateMemory (batches.flatMap (·.rows)) = 0 then
        .error (.memoryExceeded
          (max c.ledger.used (s.duplicateMemory + averageSize (batches.flatMap (·.rows))))
          c.ledger.limit)
      else .ok (min (room c.ledger.limit s.duplicateMemory (batches.flatMap (·.rows)))
        c.config.partitionFetchCap) := by
  have hd : (s.distribution != .allPartitions) = false := by simp [h.partitions]
  simp only [Scan.mergeLimit, hd, Bool.false_eq_true, ↓reduceIte, h.bytesPerRow]
  rfl

/-! Only batches are counted. -/

theorem yieldRow (h : s.Counts batches) (row : Value) (c : Control) :
    (s.yieldRow row c).state.Counts batches := by
  unfold Scan.yieldRow
  split
  · exact h
  · split
    · exact h
    · exact h
    · split
      · exact ⟨h.partitions, h.phase, h.rows, h.bytes⟩
      · exact h

theorem requeue (h : s.Counts batches) (queue : Heap Feed) :
    Counts batches { s with queue } :=
  ⟨h.partitions, h.phase, h.rows, h.bytes⟩

theorem step (h : s.Counts batches) (c : Control) : (s.step c).state.Counts batches := by
  unfold Scan.step
  split
  · exact h
  · rename_i hp
    exact (h.phase hp).elim
  · rw [ask_state]
    exact h
  · unfold stepMerge
    split
    · exact ⟨h.partitions, by simp, h.rows, h.bytes⟩
    · rename_i queue _
      simp only
      split
      · refine yieldRow ?_ _ _
        split
        · exact h.requeue queue
        · exact (h.requeue queue).requeue _
      · split
        · exact h.requeue queue
        · rw [ask_state]
          exact h

/-! A batch that is taken in is counted. -/

theorem count (h : s.Counts batches) (hd : t.distribution = s.distribution)
    (hp : t.phase ≠ .plain) (hr : t.rowsStaged = s.rowsStaged + batch.rows.length)
    (hb : t.bytesStaged = s.bytesStaged + sizeOfRows batch.rows) :
    t.Counts (batches ++ [batch]) := by
  refine ⟨hd.trans h.partitions, hp, ?_, ?_⟩
  · simp [hr, h.rows]
  · simp [hb, h.bytes, sizeOfRows_append]

theorem addVirtualScans {scans : List VirtualScan} (h : s.Counts batches)
    (hd : s.addVirtualScans c scans = (none, t, d)) : t.Counts batches := by
  induction scans generalizing s c with
  | nil =>
    cases hd
    exact h
  | cons scan rest ih =>
    unfold Scan.addVirtualScans at hd
    split at hd
    · cases hd
    · refine ih ?_ hd
      exact ⟨h.partitions, h.phase, h.rows, h.bytes⟩

theorem stagePhase1 (h : s.Counts batches) (hd : s.stagePhase1 c batch = (none, t, d)) :
    t.Counts (batches ++ [batch]) := by
  unfold Scan.stagePhase1 at hd
  split at hd
  · cases hd
  · rename_i info _
    have hs : (s.addPartitions info batch).Counts (batches ++ [batch]) := by
      obtain ⟨queue, hfold, -⟩ := queue_foldl_enqueue
        ((cut info.partitions info.counts info.keys batch.rows).filterMap partitionFeed?) s
      refine h.count ?_ ?_ rfl rfl
      all_goals
        simp only [addPartitions, hfold]
      exact h.phase
    split at hd
    · cases hd
    · simp only at hd
      split at hd
      · cases hd
        exact hs
      · cases hd
        exact ⟨hs.partitions, by simp, hs.rows, hs.bytes⟩

theorem stageMerge (h : s.Counts batches) (hd : s.stageMerge c batch = (none, t, d)) :
    t.Counts (batches ++ [batch]) := by
  unfold Scan.stageMerge at hd
  split at hd
  · cases hd
  · simp only at hd
    split at hd
    · cases hd
    · refine addVirtualScans ?_ hd
      refine h.count rfl h.phase ?_ ?_
      all_goals simp [h.partitions]

/-- A batch that was asked for is counted if it is taken in. -/
theorem deliver (h : s.Counts batches) (ha : (s.step e).signal = .request r)
    (hd : s.deliver c batch = (none, t, d)) : t.Counts (batches ++ [batch]) := by
  unfold Scan.deliver at hd
  obtain ⟨hp, -⟩ | ⟨top, hw, -⟩ := discovers_or_wants h.phase ha
  · simp only [hp] at hd
    exact h.stagePhase1 hd
  · simp only [hw.merging] at hd
    exact h.stageMerge hd

/-- A scan of sorted partitions begins without a count. -/
theorem ofInfo {reg : Nat} {info : ReceiveInfo} {shards : List Int}
    (hd : info.distribution = .allPartitions) (hs : info.specs ≠ [])
    (h : Scan.ofInfo reg info shards = .ok s) : s.Counts [] := by
  unfold Scan.ofInfo at h
  simp only at h
  split at h
  · rename_i hnil
    exact (hs hnil).elim
  · rename_i hsingle _
    rw [hd] at hsingle
    cases hsingle
  · cases h
    exact ⟨hd, by simp, rfl, rfl⟩
  · rename_i hshards _
    rw [hd] at hshards
    cases hshards

end Counts

end Scan
end ShardQuery
