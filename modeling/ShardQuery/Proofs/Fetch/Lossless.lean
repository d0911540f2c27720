import Mathlib.Algebra.Order.BigOperators.Group.List
import Mathlib.Data.List.Flatten
import ShardQuery.Fetch.Service
import ShardQuery.Proofs.Fetch.Paging
import ShardQuery.Proofs.Merge.Discovery

/-!
A cluster read to the end gives all of its rows, whether it is read as a whole, by partition, by
shard or by the partitions that the discovery phase reports. The places of rows in a shard and the
counts of the discovery phase are right as long as they fit their words.
-/

namespace ShardQuery.Cluster

/-- What every cluster satisfies that is built up from an empty one and held in memory: the numbers
of rows and partitions fit in a cursor. -/
structure Sound (c : Cluster) : Prop where
  ascending : (c.partitions.map (·.id)).Pairwise (· < ·)
  batch : 0 < c.phase1Batch
  ways : ∀ shard, 0 < c.ways shard ∧ c.ways shard < 2 ^ 32
  partitions : c.partitions.length < 2 ^ 64
  rows : (c.partitions.flatMap (·.rows)).length < 2 ^ 64

section
variable {c : Cluster}

theorem sound_empty (specs : List SortSpec) : Sound { specs } :=
  ⟨.nil, Nat.zero_lt_two, fun _ => by simp [ways], by simp, by simp⟩

theorem Sound.addPartition (h : c.Sound) {p : Partition}
    (hcount : (c.addPartition p).partitions.length < 2 ^ 64)
    (hrows : ((c.addPartition p).partitions.flatMap (·.rows)).length < 2 ^ 64) :
    (c.addPartition p).Sound := by
  refine ⟨?_, h.batch, h.ways, hcount, hrows⟩
  have hasc : c.partitions.Pairwise fun a b => a.id < b.id := List.pairwise_map.1 h.ascending
  rw [List.pairwise_map, Cluster.addPartition, List.pairwise_append]
  refine ⟨hasc.filter _, List.pairwise_cons.2 ⟨?_, hasc.filter _⟩, ?_⟩
  · intro b hb
    simpa using (List.mem_filter.1 hb).2
  · intro a ha b hb
    have ha : a.id < p.id := by simpa using (List.mem_filter.1 ha).2
    rcases List.mem_cons.1 hb with rfl | hb
    · exact ha
    · exact ha.trans (by simpa using (List.mem_filter.1 hb).2)

theorem Sound.setPhase1Batch (h : c.Sound) (count : Nat) : (c.setPhase1Batch count).Sound :=
  { h with batch := Nat.le_max_right .. }

theorem Sound.splitShard (h : c.Sound) (shard : Int) {ways : Nat} (hw : ways < 2 ^ 32) :
    (c.splitShard shard ways).Sound := by
  refine { h with ways := fun other => ?_ }
  rw [Cluster.ways, Cluster.splitShard, List.lookup_cons]
  cases other == shard
  · exact h.ways other
  · simp only [Option.getD_some]
    omega

end

/-! ## Partitions -/

section
variable {c : Cluster} {r : Reader} {rows : List Value}

theorem ends_any (hc : c.Sound) (ht : r.target = .any) :
    r.Ends c none (Pages (c.partitions.flatMap (·.rows)) []) := by
  refine (ends_pages hc.rows fun request hr => ?_).1
  rw [answer, hr, ht]
  cases Cursor.ofContinuation request.continuation <;> rfl

theorem partitionRows_eq (hc : c.Sound) {p : Partition} (hp : p ∈ c.partitions) :
    c.partitionRows p.id = .ok (sortRows c.specs p.rows) := by
  have hnodup : (c.partitions.map (·.id)).Nodup := hc.ascending.imp ne_of_lt
  have hfind : c.partitions.find? (·.id == p.id) = some p := by
    obtain ⟨q, hq⟩ := Option.isSome_iff_exists.1
      (List.find?_isSome (p := fun q : Partition => q.id == p.id).2 ⟨p, hp, beq_self_eq_true p.id⟩)
    have hid : q.id = p.id := by simpa using List.find?_some hq
    rw [hq, List.inj_on_of_nodup_map hnodup (List.mem_of_find?_eq_some hq) hp hid]
  rw [partitionRows, hfind]

theorem length_sortRows (specs : List SortSpec) (rows : List Value) :
    (sortRows specs rows).length = rows.length :=
  (sortRows_stable specs rows).perm.length_eq

theorem length_sortRows_lt (hc : c.Sound) {partitions : List Partition}
    (hp : partitions.Sublist c.partitions) :
    (sortRows c.specs (partitions.flatMap (·.rows))).length < 2 ^ 64 := by
  rw [length_sortRows]
  exact (List.Sublist.flatMap hp (·.rows)).length_le.trans_lt hc.rows

theorem ends_partition (hc : c.Sound) {p : Partition} (hp : p ∈ c.partitions)
    (ht : r.target = .partition p.id) :
    r.Ends c none (Pages (sortRows c.specs p.rows) []) ∧
      ∀ offset < (sortRows c.specs p.rows).length,
      r.Ends c (some (Cursor.encode ⟨0, offset⟩))
        (Pages ((sortRows c.specs p.rows).drop offset) []) := by
  have hlen := length_sortRows_lt hc (List.singleton_sublist.2 hp)
  rw [List.flatMap_singleton] at hlen
  refine ends_pages hlen fun request hr => ?_
  rw [answer, hr, ht]
  simp only [partitionRows_eq hc hp]
  cases Cursor.ofContinuation request.continuation <;> rfl

/-! ## Shards -/

/-- The rows of all partitions of a shard, sorted. -/
def sortedShard (c : Cluster) (shard : Int) : List Value :=
  sortRows c.specs ((c.ofShard shard).flatMap (·.rows))

theorem shardRows_eq {shard : Int} (hshard : shard ∈ c.shards) :
    c.shardRows shard = .ok (c.sortedShard shard) := by
  obtain ⟨p, hp, rfl⟩ : ∃ p ∈ c.partitions, p.shard = shard := by
    simpa [shards] using hshard
  have hmem : p ∈ c.ofShard p.shard := List.mem_filter.2 ⟨hp, beq_self_eq_true p.shard⟩
  rw [shardRows, if_neg (by simpa using List.ne_nil_of_mem hmem), sortedShard]

theorem shardCursor_of_scan (request : FetchRequest) {scan : VirtualScan} {n : Nat}
    (hkey : request.continuation = none) (hscan : request.virtualScan = some scan)
    (hn : n < 2 ^ 32) (hk : scan.primaryKey = bigEndian 4 n) :
    shardCursor request = .ok ⟨n, 0⟩ := by
  rw [shardCursor, hkey, hscan]
  simp only [subsetOf_bigEndian hn hk]
  rfl

/-- A page of a part of a shard. -/
theorem answer_shard {shard : Int} {request : FetchRequest} {cursor : Cursor}
    (ht : request.target = .shard shard) (hcursor : shardCursor request = .ok cursor)
    (hsubset : cursor.subset < c.ways shard) (hrows : c.shardRows shard = .ok rows) :
    c.answer request = .ok { page (everyNth (c.ways shard) cursor.subset rows) cursor
      (max request.limit 1) with
        virtualScans := if request.continuation.isNone && request.virtualScan.isNone then
          c.virtualScans shard else [] } := by
  rw [answer, ht]
  simp only [answerShard, hcursor, hrows, bind, Except.bind, Nat.not_le.2 hsubset, ↓reduceIte, pure,
    Except.pure]
  split <;> rfl

theorem ends_shard (hc : c.Sound) {shard : Int} (hshard : shard ∈ c.shards)
    (ht : r.target = .shard shard) {subset : Nat} (hsubset : subset < c.ways shard)
    (hstart : shardCursor (r.request 0 none) = .ok ⟨subset, 0⟩) :
    r.Ends c none (Pages (everyNth (c.ways shard) subset (c.sortedShard shard))
      (if (r.scans 0).isNone then c.virtualScans shard else [])) := by
  have hrows := shardRows_eq hshard
  have hlen : (c.sortedShard shard).length < 2 ^ 64 := length_sortRows_lt hc List.filter_sublist
  generalize c.sortedShard shard = rows at hrows hlen ⊢
  have hpart : (everyNth (c.ways shard) subset rows).length ≤ rows.length := by
    rw [everyNth, List.length_map]
    exact (List.length_filter_le ..).trans (by rw [List.length_zipIdx])
  have hnext : ∀ n offset, offset < (everyNth (c.ways shard) subset rows).length →
      c.answer (r.request n (some (Cursor.encode ⟨subset, offset⟩))) =
        .ok (page (everyNth (c.ways shard) subset rows) ⟨subset, offset⟩ (max (r.limits n) 1)) := by
    intro n offset ho
    exact answer_shard ht
      (Cursor.decode_encode (hsubset.trans (hc.ways shard).2) (by simp only; omega)) hsubset hrows
  obtain ⟨batches, hreceives, hpages⟩ := receives_pages hnext (answer_shard ht hstart hsubset hrows)
  exact hreceives.ends hpages

/-- The parts in which a shard is read. The base scan gives the first of them and announces a
virtual scan for each of the others. A part holds the rows whose place, told in words of 32 bits, has
its number as residue. Where this is the residue of the place itself, the part starts with the row at
its number and goes on in equal steps. -/
structure ReadInParts (c : Cluster) (shard : Int) (announced : List VirtualScan)
    (first : List Value) (others : List (List Value)) : Prop where
  ways : others.length + 1 = c.ways shard
  base : ∀ r : Reader, r.target = .shard shard → r.scans 0 = none →
    r.Ends c none (Pages first announced)
  scans : List.Forall₂ (fun scan part => ∀ r : Reader, r.target = .shard shard →
    r.scans 0 = some scan → r.Ends c none (Pages part [])) announced others
  parts : ∀ subset part, (first :: others)[subset]? = some part →
    part = everyNth (c.ways shard) subset (c.sortedShard shard)
  residues : c.ways shard ∣ 2 ^ 32 ∨ (c.sortedShard shard).length ≤ 2 ^ 32 →
    ∀ subset part, (first :: others)[subset]? = some part →
    ∀ k, part[k]? = (c.sortedShard shard)[subset + k * c.ways shard]?
  once : (first :: others).flatten.Perm (c.sortedShard shard)

/-- The part with number zero and those of the numbers behind it are all parts. -/
theorem cons_map_range' {α : Type} (f : Nat → α) {w : Nat} (hw : 0 < w) :
    f 0 :: (List.range' 1 (w - 1)).map f = (List.range w).map f := by
  obtain ⟨w, rfl⟩ := Nat.exists_eq_add_one_of_ne_zero hw.ne'
  rw [List.range_eq_range', List.range'_succ, List.map_cons, Nat.add_sub_cancel]

theorem of_getElem?_map_range {α : Type} {f : Nat → α} {w n : Nat} {a : α}
    (h : ((List.range w).map f)[n]? = some a) : n < w ∧ a = f n := by
  obtain ⟨hlt, rfl⟩ := List.getElem?_eq_some_iff.1 h
  rw [List.length_map, List.length_range] at hlt
  exact ⟨hlt, by simp⟩

theorem readInParts (hc : c.Sound) {shard : Int} (hshard : shard ∈ c.shards) :
    ∃ first others, c.ReadInParts shard (c.virtualScans shard) first others := by
  obtain ⟨hpos, hlt⟩ := hc.ways shard
  let part (subset : Nat) : List Value := everyNth (c.ways shard) subset (c.sortedShard shard)
  have hall := cons_map_range' part hpos
  have hparts : ∀ subset p, (part 0 :: (List.range' 1 (c.ways shard - 1)).map part)[subset]? =
      some p → subset < c.ways shard ∧ p = part subset :=
    fun subset p hp => of_getElem?_map_range (hall ▸ hp)
  refine ⟨part 0, (List.range' 1 (c.ways shard - 1)).map part, ⟨?_, fun r ht hs => ?_, ?_,
    fun subset p hp => (hparts subset p hp).2, fun hplaces subset p hp k => ?_, ?_⟩⟩
  · rw [List.length_map, List.length_range', Nat.sub_add_cancel hpos]
  · have hstart : shardCursor (r.request 0 none) = .ok .start := by
      simp [shardCursor, Reader.request, hs]
    simpa [hs] using ends_shard hc hshard ht hpos hstart
  · rw [virtualScans, List.forall₂_map_left_iff, List.forall₂_map_right_iff, List.forall₂_same]
    intro subset hmem r ht hs
    obtain ⟨h1, h2⟩ := List.mem_range'_1.1 hmem
    have hstart : shardCursor (r.request 0 none) = .ok ⟨subset, 0⟩ :=
      shardCursor_of_scan (r.request 0 none) rfl hs (by omega) rfl
    simpa [hs] using ends_shard hc hshard ht (by omega) hstart
  · obtain ⟨hsubset, rfl⟩ := hparts subset p hp
    rw [show part subset = _ from everyNth_eq_stride hplaces subset]
    exact getElem?_stride hsubset (c.sortedShard shard) k
  · rw [hall]
    exact flatMap_everyNth_perm hpos (c.sortedShard shard)

/-! ## The discovery phase -/

/-- What a batch of the discovery phase reports of a partition, and what it leaves. -/
def share (c : Cluster) (count : Nat) (p : Partition) : Share where
  id := p.id
  rows := (sortRows c.specs p.rows).take count
  key := if count < (sortRows c.specs p.rows).length then some (Cursor.encode ⟨0, count⟩) else none
  owed := (sortRows c.specs p.rows).drop count

theorem whole_share (c : Cluster) (count : Nat) (p : Partition) :
    (c.share count p).whole = (p.id, sortRows c.specs p.rows) := by
  rw [Share.whole, share, List.take_append_drop]

theorem share_whole (c : Cluster) (count : Nat) (p : Partition) : (c.share count p).Whole := by
  intro hkey
  have hlen : ¬count < (sortRows c.specs p.rows).length := by
    intro h
    simp [share, h] at hkey
  exact List.drop_eq_nil_of_le (Nat.not_lt.1 hlen)

/-- A batch of the discovery phase reports some partitions. From each key the rest of its partition
can be read. The counts are words of 32 bits with a sign, and they add up to the rows of the batch
where none of them runs over. -/
structure Tells (c : Cluster) (batch : Batch) (info : Phase1Info) (shares : List Share) : Prop where
  reported : batch.phase1 = some info
  inPhase1 : info.inPhase1 = batch.continuation.isSome
  partitions : info.partitions = shares.map (·.id)
  counts : info.counts = shares.map fun s => (Int32.ofNat s.rows.length).toInt
  keys : info.keys = shares.map (·.key)
  rows : batch.rows = shares.flatMap (·.rows)
  counted : (∀ s ∈ shares, s.rows.length < 2 ^ 31) → info.counts.sum = batch.rows.length
  whole : ∀ s ∈ shares, s.Whole
  continues : ∀ s ∈ shares, ∀ key, s.key = some key → ∀ r : Reader, r.target = .partition s.id →
    r.Ends c (some key) (Pages s.owed [])

/-- Batches of the discovery phase that report these partitions, each once and in this order. The
rows of a partition in its batch and those that its key leads to are all of its rows in order. -/
def Discovers (c : Cluster) (partitions : List Partition) (batches : List Batch) : Prop :=
  ∃ reports : List (List Share),
    List.Forall₂ (fun batch shares => ∃ info, c.Tells batch info shares) batches reports ∧
    reports.flatten.map Share.whole = partitions.map fun p => (p.id, sortRows c.specs p.rows)

/-- The partitions that some batches report. -/
def reportedIds (batches : List Batch) : List Int :=
  batches.flatMap fun batch => batch.phase1.elim [] (·.partitions)

theorem Discovers.reportedIds {partitions : List Partition} {batches : List Batch}
    (h : c.Discovers partitions batches) :
    reportedIds batches = partitions.map (·.id) := by
  obtain ⟨reports, htold, hshares⟩ := h
  have hids : reports.flatten.map Share.id = partitions.map (·.id) := by
    simpa [Function.comp_def, Share.whole] using congrArg (List.map Prod.fst) hshares
  rw [← hids]
  clear hids hshares
  induction htold with
  | nil => rfl
  | @cons batch shares batches reports htells _ ih =>
    obtain ⟨info, htells⟩ := htells
    rw [Cluster.reportedIds, List.flatMap_cons, htells.reported, Option.elim_some,
      htells.partitions, List.flatten_cons, List.map_append, ← ih, Cluster.reportedIds]

theorem continues_share (hc : c.Sound) {p : Partition} (hp : p ∈ c.partitions) {count : Nat}
    {key : Bytes} (hkey : (c.share count p).key = some key) (ht : r.target = .partition p.id) :
    r.Ends c (some key) (Pages (c.share count p).owed []) := by
  obtain ⟨hlt, rfl⟩ : count < (sortRows c.specs p.rows).length ∧
      Cursor.encode ⟨0, count⟩ = key := by simpa [share] using hkey
  exact (ends_partition hc hp ht).2 count hlt

/-- What a batch with these shares tells. -/
theorem tells_shares {batch : Batch} {info : Phase1Info} {found : List Partition} {count : Nat}
    (hc : c.Sound) (hfound : ∀ p ∈ found, p ∈ c.partitions) (hinfo : batch.phase1 = some info)
    (hmore : info.inPhase1 = batch.continuation.isSome)
    (hids : info.partitions = found.map (·.id))
    (hcounts : info.counts =
      (found.map (c.slice count)).map fun s => (Int32.ofNat s.1.length).toInt)
    (hkeys : info.keys = (found.map (c.slice count)).map (·.2))
    (hrows : batch.rows = (found.map (c.slice count)).flatMap (·.1)) :
    c.Tells batch info (found.map (c.share count)) := by
  have hids : info.partitions = (found.map (c.share count)).map (·.id) := by
    rw [hids, List.map_map]
    rfl
  have hcounts : info.counts =
      (found.map (c.share count)).map fun s => (Int32.ofNat s.rows.length).toInt := by
    rw [hcounts, List.map_map, List.map_map]
    rfl
  have hkeys : info.keys = (found.map (c.share count)).map (·.key) := by
    rw [hkeys, List.map_map, List.map_map]
    rfl
  have hrows : batch.rows = (found.map (c.share count)).flatMap (·.rows) := by
    rw [hrows, List.flatMap_map, List.flatMap_map]
    rfl
  have hwhole : ∀ s ∈ found.map (c.share count), s.Whole :=
    List.forall_mem_map.2 fun p _ => share_whole c count p
  refine ⟨hinfo, hmore, hids, hcounts, hkeys, hrows, fun hsmall => ?_, hwhole, ?_⟩
  · refine Reports.sum_counts ⟨hids, hcounts.trans (List.map_congr_left fun s hs => ?_), hkeys,
      hrows, hwhole⟩
    exact Int32.toInt_ofNat_of_lt (hsmall s hs)
  · intro s hs key hkey r ht
    obtain ⟨p, hp, rfl⟩ := List.mem_map.1 hs
    exact continues_share hc (hfound p hp) hkey ht

/-- A batch of the discovery phase reports the next partitions. These share the limit. -/
theorem answer_discovery (hc : c.Sound) (request : FetchRequest) {first : Nat}
    {found : List Partition} (hfound : (c.partitions.drop first).take c.phase1Batch = found)
    (ht : request.target = .sortPhase1)
    (hcursor : Cursor.ofContinuation request.continuation = .ok ⟨0, first⟩) :
    ∃ batch info, c.answer request = .ok batch ∧
      c.Tells batch info (found.map (c.share (max (max request.limit 1 / max found.length 1) 1))) ∧
      batch.continuation = if first + c.phase1Batch < c.partitions.length then
        some (Cursor.encode ⟨0, first + c.phase1Batch⟩) else none := by
  have hmem : ∀ p ∈ found, p ∈ c.partitions :=
    fun p hp => List.mem_of_mem_drop (List.mem_of_mem_take (hfound ▸ hp))
  rw [answer, ht]
  simp only [answerPhase1, hcursor, bind, Except.bind, pure, Except.pure, hfound]
  refine ⟨_, _, rfl, tells_shares hc hmem rfl ?_ rfl rfl rfl rfl, continuation_eq ..⟩
  by_cases hmore : first + c.phase1Batch < c.partitions.length <;> simp [hmore]

theorem receives_discovery (hc : c.Sound) (ht : r.target = .sortPhase1) {n first : Nat}
    {key : Option Bytes} (hcursor : Cursor.ofContinuation key = .ok ⟨0, first⟩) :
    ∃ batches, r.Receives c n key batches ∧ c.Discovers (c.partitions.drop first) batches := by
  -- Every batch reports some partitions, and the next one starts behind them.
  induction hleft : c.partitions.length - first using Nat.strong_induction_on
    generalizing n first key with
  | _ left ih =>
    obtain ⟨batch, info, hbatch, htells, hcont⟩ :=
      answer_discovery hc (r.request n key) rfl ht hcursor
    have hpos := hc.batch
    have hlt := hc.partitions
    have hwhole (count : Nat) (partitions : List Partition) :
        (partitions.map (c.share count)).map Share.whole =
          partitions.map fun p => (p.id, sortRows c.specs p.rows) := by
      rw [List.map_map]
      exact List.map_congr_left fun p _ => whole_share c count p
    by_cases hmore : first + c.phase1Batch < c.partitions.length
    · rw [if_pos hmore] at hcont
      have hnext : Cursor.ofContinuation (some (Cursor.encode ⟨0, first + c.phase1Batch⟩)) =
          .ok ⟨0, first + c.phase1Batch⟩ :=
        Cursor.decode_encode (Nat.two_pow_pos 32) (hmore.trans hlt)
      obtain ⟨batches, hreceives, reports, htold, hshares⟩ :=
        ih (c.partitions.length - (first + c.phase1Batch)) (by omega) (n := n + 1) hnext rfl
      refine ⟨_, .more hbatch hcont hreceives, _, .cons ⟨info, htells⟩ htold, ?_⟩
      rw [List.flatten_cons, List.map_append, hwhole, hshares, ← List.map_append, ← List.drop_drop,
        List.take_append_drop]
    · rw [if_neg hmore] at hcont
      refine ⟨_, .last hbatch hcont, _, .cons ⟨info, htells⟩ .nil, ?_⟩
      rw [List.flatten_singleton, hwhole, List.take_of_length_le]
      rw [List.length_drop]
      omega

end

/-- Every source of a cluster can be read to its end, whatever the limits, and nothing is lost. -/
structure Lossless (c : Cluster) : Prop where
  sorted : ∀ rows, StablySorted c.specs rows (sortRows c.specs rows)
  any : ∀ r : Reader, r.target = .any →
    r.Ends c none (Pages (c.partitions.flatMap (·.rows)) [])
  partition : ∀ p ∈ c.partitions, ∀ r : Reader, r.target = .partition p.id →
    r.Ends c none (Pages (sortRows c.specs p.rows) [])
  shard : ∀ shard ∈ c.shards, ∃ announced first others,
    c.ReadInParts shard announced first others
  discovery : ∀ r : Reader, r.target = .sortPhase1 → r.Ends c none fun batches =>
    c.Discovers c.partitions batches ∧ (reportedIds batches).Pairwise (· < ·)

theorem lossless {c : Cluster} (hc : c.Sound) : c.Lossless where
  sorted := sortRows_stable c.specs
  any _ ht := ends_any hc ht
  partition _ hp _ ht := (ends_partition hc hp ht).1
  shard shard hshard := ⟨c.virtualScans shard, readInParts hc hshard⟩
  discovery r ht := by
    have hstart : Cursor.ofContinuation none = .ok ⟨0, 0⟩ := rfl
    obtain ⟨batches, hreceives, hdiscovers⟩ := receives_discovery hc ht (n := 0) hstart
    rw [List.drop_zero] at hdiscovers
    refine hreceives.ends ⟨hdiscovers, ?_⟩
    rw [hdiscovers.reportedIds]
    exact hc.ascending

/-- Three partitions on two shards, one of which is scanned in three parts. -/
def threePartitions : Cluster :=
  let row (n : Int64) : Value := .map [("id", .long n)]
  let empty : Cluster := { specs := [{ field := "id", descending := true }] }
  (((empty.addPartition ⟨4, 7, [row 1, row 2, row 3]⟩).addPartition ⟨2, 7, [row 4]⟩).addPartition
    ⟨3, 8, []⟩).setPhase1Batch 2 |>.splitShard 7 3

theorem lossless_threePartitions : threePartitions.Sound ∧ threePartitions.Lossless := by
  have hc : threePartitions.Sound :=
    ((((sound_empty _).addPartition (by decide) (by decide)).addPartition (by decide)
      (by decide)).addPartition (by decide) (by decide)).setPhase1Batch 2
        |>.splitShard 7 (by decide)
  exact ⟨hc, lossless hc⟩

/-! ## Where words run over -/

/-- One partition, whose shard is scanned in some parts. -/
def single (rows : List Value) (ways : Nat) : Cluster :=
  (Cluster.addPartition {} ⟨1, 1, rows⟩).splitShard 1 ways

theorem sound_single {rows : List Value} {ways : Nat} (hrows : rows.length < 2 ^ 64)
    (hways : ways < 2 ^ 32) : (single rows ways).Sound := by
  refine ((sound_empty []).addPartition ?_ ?_).splitShard 1 hways
  · exact Nat.one_lt_two_pow (by decide)
  · rwa [show (Cluster.addPartition {} ⟨1, 1, rows⟩).partitions = [⟨1, 1, rows⟩] from rfl,
      List.flatMap_singleton]

theorem sortedShard_single (rows : List Value) (ways : Nat) :
    (single rows ways).sortedShard 1 = sortRows [] rows := by
  rw [sortedShard, show (single rows ways).ofShard 1 = [⟨1, 1, rows⟩] from rfl,
    List.flatMap_singleton]
  rfl

/-- The first of three parts holds every third row and the one behind the last place. -/
theorem length_everyNth_three {rows : List Value} (hlen : rows.length = 2 ^ 32 + 1) :
    (everyNth 3 0 rows).length = 1431655767 := by
  obtain ⟨init, x, rfl⟩ : ∃ init x, rows = init ++ [x] :=
    ⟨_, _, (List.dropLast_append_getLast (List.ne_nil_of_length_eq_add_one hlen)).symm⟩
  have hinit : init.length = 2 ^ 32 := by
    rw [List.length_append, List.length_singleton] at hlen
    omega
  have hstride : (stride 3 0 init).length = 1431655766 := by
    refine Nat.le_antisymm ?_ ?_
    · rw [← List.getElem?_eq_none_iff, getElem?_stride (by decide), List.getElem?_eq_none_iff, hinit]
      decide
    · rw [Nat.succ_le_iff, ← Nat.not_le, ← List.getElem?_eq_none_iff,
        getElem?_stride (by decide), List.getElem?_eq_none_iff, hinit]
      decide
  rw [everyNth_concat hinit, List.length_append, hstride, List.length_singleton]

/-- The base scan has a row more than there are places with its residue. -/
theorem base_single {rows : List Value} (hlen : rows.length = 2 ^ 32 + 1) {r : Reader}
    (ht : r.target = .shard 1) (hs : r.scans 0 = none) :
    r.Ends (single rows 3) none fun batches =>
      (batches.flatMap (·.rows)).length = 1431655767 ∧
        ((single rows 3).sortedShard 1)[1431655766 * 3]? = none := by
  have hc : (single rows 3).Sound := sound_single (by omega) (by decide)
  have hshard : 1 ∈ (single rows 3).shards := by
    simp [shards, single, splitShard, Cluster.addPartition]
  have hsorted : ((single rows 3).sortedShard 1).length = 2 ^ 32 + 1 := by
    rw [sortedShard_single, length_sortRows, hlen]
  obtain ⟨first, others, hparts⟩ := readInParts hc hshard
  have hfirst : first = everyNth 3 0 ((single rows 3).sortedShard 1) := hparts.parts 0 first rfl
  obtain ⟨batches, hunique, hpages⟩ := hparts.base r ht hs
  refine ⟨batches, hunique, ?_, ?_⟩
  · rw [hpages.rows, hfirst, length_everyNth_three hsorted]
  · rw [List.getElem?_eq_none_iff, hsorted]
    decide

/-- As many rows as a word with a sign does not hold are counted below zero. -/
theorem counts_single {rows : List Value} (hlen : rows.length = 2 ^ 31) :
    ∃ batch info, (single rows 1).answer { target := .sortPhase1, limit := 2 ^ 31 } = .ok batch ∧
      batch.phase1 = some info ∧ info.counts = [-2 ^ 31] ∧ batch.rows.length = 2 ^ 31 := by
  have hc : (single rows 1).Sound := sound_single (by omega) (by decide)
  have hfound : ((single rows 1).partitions.drop 0).take (single rows 1).phase1Batch =
      [⟨1, 1, rows⟩] := rfl
  obtain ⟨batch, info, hbatch, htells, -⟩ :=
    answer_discovery hc { target := .sortPhase1, limit := 2 ^ 31 } hfound rfl rfl
  have hshare : ((single rows 1).share (2 ^ 31) ⟨1, 1, rows⟩).rows.length = 2 ^ 31 := by
    rw [share, List.length_take, length_sortRows, hlen, Nat.min_self]
  have hlimit : max (max (2 ^ 31) 1 / max 1 1) 1 = 2 ^ 31 := by decide
  have hcounts := htells.counts
  have hrows := htells.rows
  simp only [List.length_singleton, hlimit, List.map_singleton, List.flatMap_singleton, hshare]
    at hcounts hrows
  exact ⟨batch, info, hbatch, htells.reported, hcounts, by rw [hrows, hshare]⟩

/-- With more rows than words can tell apart, a base scan has rows that are not at its residue, and
counts do not add up to the rows. A failure that is queued comes before all rows. -/
theorem not_lossless_beyond_words :
    (∀ r : Reader, r.target = .shard 1 → r.scans 0 = none →
      r.Ends (single (List.replicate (2 ^ 32 + 1) .null) 3) none fun batches =>
        (batches.flatMap (·.rows)).length = 1431655767 ∧
          ((single (List.replicate (2 ^ 32 + 1) .null) 3).sortedShard 1)[1431655766 * 3]? = none) ∧
    (∃ batch info, (single (List.replicate (2 ^ 31) .null) 1).answer
        { target := .sortPhase1, limit := 2 ^ 31 } = .ok batch ∧
      batch.phase1 = some info ∧ info.counts = [-2 ^ 31] ∧ batch.rows.length = 2 ^ 31) ∧
    (Service.answer { backend := .cluster (single [.long 1] 1) [.retryable "busy"] }
      { target := .any, limit := 1 }).1 = .error (.retryable "busy") :=
  ⟨fun _ => base_single List.length_replicate, counts_single List.length_replicate, rfl⟩

end ShardQuery.Cluster
