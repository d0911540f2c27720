import Mathlib.Algebra.Order.BigOperators.Group.List
import ShardQuery.Merge.Scan
import ShardQuery.Proofs.Session.Scanning

/-!
The books of a query: each part of it holds some of the bytes that are charged, and knows how many.
Whatever a part does, the ledger follows what it holds, and what others hold stays charged. Here are
the feeds and the scans.
-/

namespace ShardQuery

namespace Control
variable {c d e : Control} {n own own' own'' : Nat} {failure : QueryError}

/-- From one control to a later one, what is charged for someone changes and the rest stays. -/
def Settles (c d : Control) (own own' : Nat) : Prop :=
  ∀ others, c.ledger.used = others + own → d.ledger.used = others + own'

theorem Settles.of_eq (h : d.ledger = c.ledger) (own : Nat) : c.Settles d own own := by
  intro others hu
  rwa [h]

theorem Settles.trans (hcd : c.Settles d own own') (hde : d.Settles e own' own'') :
    c.Settles e own own'' := by
  intro others hu
  exact hde others (hcd others hu)

/-- What is held beside it makes no difference. -/
theorem Settles.beside (h : c.Settles d own own') (n : Nat) :
    c.Settles d (n + own) (n + own') := by
  intro others hu
  have := h (others + n) (by omega)
  omega

theorem Settles.before (h : c.Settles d own own') (n : Nat) :
    c.Settles d (own + n) (own' + n) := by
  intro others hu
  have := h (others + n) (by omega)
  omega

theorem settles_charge (h : c.charge n = (none, d)) (own : Nat) : c.Settles d own (own + n) := by
  intro others hu
  unfold charge at h
  split at h
  · rename_i hl
    obtain ⟨-, rfl⟩ := Ledger.charge_eq_ok_iff.1 hl
    cases h
    simp only [hu]
    omega
  · cases h

theorem ledger_of_refused (h : c.charge n = (some failure, d)) : d.ledger = c.ledger := by
  unfold charge at h
  split at h
  · cases h
  · cases h
    rfl

theorem settles_release (c : Control) (n own : Nat) : c.Settles (c.release n) (n + own) own := by
  intro others hu
  simp only [release, Ledger.release, hu]
  omega

end Control

/-- What holds memory: how much it is, and whether its own counts are right. -/
class Holder (σ : Type) where
  held : σ → Nat
  Exact : σ → Prop

/-- What became of someone who held some bytes: its counts are right, and the ledger follows what
it holds now. -/
structure Booked {σ : Type} [Holder σ] (c : Control) (own : Nat) (s : σ) (d : Control) : Prop where
  exact : Holder.Exact s
  settles : c.Settles d own (Holder.held s)

namespace Booked
variable {σ : Type} [Holder σ] {c d e : Control} {own own' n : Nat} {s : σ}

/-- Without a look at the ledger. -/
theorem of_eq (hd : d.ledger = c.ledger) (hs : Holder.Exact s) (hh : Holder.held s = own) :
    Booked c own s d := by
  refine ⟨hs, ?_⟩
  rw [hh]
  exact .of_eq hd own

/-- What is charged is held. -/
theorem of_charge (hc : c.charge n = (none, d)) (hd : e.ledger = d.ledger) (hs : Holder.Exact s)
    (hh : Holder.held s = own + n) : Booked c own s e := by
  refine ⟨hs, ?_⟩
  rw [hh]
  exact (Control.settles_charge hc own).trans (.of_eq hd _)

/-- What is given back is held no longer, and nothing after it disturbs the books. -/
theorem of_release (hn : own = own' + n) (h : Booked (c.release n) own' s d) :
    Booked c own s d := by
  refine ⟨h.exact, .trans ?_ h.settles⟩
  rw [hn, Nat.add_comm]
  exact Control.settles_release c n own'

theorem after (h : Booked d own' s e) (hcd : c.Settles d own own') : Booked c own s e :=
  ⟨h.exact, hcd.trans h.settles⟩

end Booked

/-! ## Feeds and scans -/

/-- A feed that counts the bytes of its rows. -/
def Feed.Exact (f : Feed) : Prop := f.memory = sizeOfRows f.rows

theorem sizeOfRows_append (xs ys : List Value) :
    sizeOfRows (xs ++ ys) = sizeOfRows xs + sizeOfRows ys := by
  induction xs with
  | nil => simp [sizeOfRows, Value.sizeItems]
  | cons x xs ih =>
    simp only [sizeOfRows, List.cons_append, Value.sizeItems] at ih ⊢
    omega

namespace Feed
variable {f g : Feed} {row : Value}

theorem Exact.stage (h : f.Exact) (rows : List Value) (continuation : Option Bytes) :
    (f.stage rows continuation).Exact := by
  change f.memory + sizeOfRows rows = sizeOfRows (f.rows ++ rows)
  rw [sizeOfRows_append, h]

/-- A row that leaves takes its bytes along. -/
theorem Exact.pop (h : f.Exact) (hp : f.pop? = some (row, g)) :
    g.Exact ∧ f.memory = row.size + g.memory := by
  unfold pop? at hp
  split at hp
  · cases hp
  · rename_i rest hr
    cases hp
    have hm : f.memory = row.size + Value.sizeItems rest := by
      rw [h, hr]
      rfl
    simp only [Exact, sizeOfRows]
    omega

theorem Exact.of_pop?_eq_none (h : f.Exact) (hp : f.pop? = none) : f.memory = 0 := by
  unfold pop? at hp
  split at hp
  · rename_i hr
    rw [h, hr]
    rfl
  · cases hp

theorem Exact.of_isExhausted (h : f.Exact) (he : f.isExhausted = true) : f.memory = 0 := by
  have hr : f.rows = [] := by simpa [hasRows] using (Bool.and_eq_true_iff.1 he).1
  rw [h, hr]
  rfl

end Feed

namespace Scan
variable {s : Scan} {c d : Control} {f top : Feed} {queue : Heap Feed} {row : Value}

/-- A scan whose feeds count the bytes of their rows. -/
structure Exact (s : Scan) : Prop where
  stream : s.stream.Exact
  queue : ∀ f ∈ s.queue.toList, f.Exact

instance : Holder Scan := ⟨held, Exact⟩

/-- Bytes charged for the rows of the feeds in the queue. -/
def queued (s : Scan) : Nat := (s.queue.toList.map Feed.memory).sum

theorem held_eq (s : Scan) : s.held = s.stream.memory + s.queued + s.duplicateMemory := rfl

theorem queued_enqueue (s : Scan) (f : Feed) : (s.enqueue f).queued = f.memory + s.queued := by
  have hp : (s.enqueue f).queue.toList.Perm (f :: s.queue.toList) := Heap.push_perm ..
  simpa [queued] using (hp.map Feed.memory).sum_nat

theorem held_enqueue (s : Scan) (f : Feed) : (s.enqueue f).held = s.held + f.memory := by
  rw [held_eq, held_eq, queued_enqueue]
  change s.stream.memory + _ + s.duplicateMemory = _
  omega

theorem Exact.enqueue (h : s.Exact) (hf : f.Exact) : (s.enqueue f).Exact := by
  refine ⟨h.stream, fun g hg => ?_⟩
  have hp : (s.enqueue f).queue.toList.Perm (f :: s.queue.toList) := Heap.push_perm ..
  rcases List.mem_cons.1 (hp.mem_iff.1 hg) with rfl | hg
  · exact hf
  · exact h.queue g hg

/-- Taking the first feed off the queue takes what it holds away from the scan. -/
theorem Exact.unqueue (h : s.Exact) (hq : s.queue.pop? (Feed.compare s.specs) = some (top, queue)) :
    top.Exact ∧ Exact { s with queue } ∧ s.held = held { s with queue } + top.memory := by
  have hp := Heap.pop?_perm hq
  refine ⟨h.queue top (hp.mem_iff.2 (List.mem_cons_self ..)), ⟨h.stream, fun g hg => ?_⟩, ?_⟩
  · exact h.queue g (hp.mem_iff.2 (List.mem_cons_of_mem _ hg))
  · have := (hp.map Feed.memory).sum_nat
    simp only [List.map_cons, List.sum_cons] at this
    simp only [held, duplicateMemory]
    omega

theorem new_memory {d d' : DuplicateSet} {cost : Nat} (h : d.inspect row = .new cost d') :
    d'.memory = d.memory + cost := by
  unfold DuplicateSet.inspect at h
  split at h
  · cases h
  · simp only at h
    split at h
    · cases h
    · cases h
      rfl

theorem yieldRow_booked (h : s.Exact) (row : Value) (c : Control) :
    Booked c s.held (s.yieldRow row c).state (s.yieldRow row c).control := by
  unfold yieldRow
  split
  · exact .of_eq rfl h rfl
  · rename_i known hk
    split
    · exact .of_eq rfl h rfl
    · exact .of_eq rfl h rfl
    · rename_i cost more hi
      split
      · rename_i d hd
        refine .of_charge hd rfl ⟨h.stream, h.queue⟩ ?_
        change held { s with duplicates := some more } = s.held + cost
        simp only [held, duplicateMemory, hk, Option.map_some, Option.getD_some, new_memory hi]
        omega
      · rename_i hd
        exact .of_eq (Control.ledger_of_refused hd) h rfl

theorem ask_booked (h : s.Exact) (c : Control) (limit : Except QueryError Nat)
    (request : Nat → FetchRequest) :
    Booked c s.held (s.ask c limit request).state (s.ask c limit request).control := by
  unfold ask
  split
  · exact .of_eq rfl h rfl
  · split <;> exact .of_eq rfl h rfl

theorem stepPlain_booked (h : s.Exact) (c : Control) :
    Booked c s.held (s.stepPlain c).state (s.stepPlain c).control := by
  unfold stepPlain
  split
  · rename_i row stream hp
    obtain ⟨hstream, hm⟩ := h.stream.pop hp
    refine .of_release ?_ (yieldRow_booked (s := { s with stream }) ⟨hstream, h.queue⟩ row _)
    simp only [held, duplicateMemory]
    omega
  · split
    · exact .of_eq rfl ⟨h.stream, h.queue⟩ rfl
    · exact ask_booked h ..

theorem stepMerge_booked (h : s.Exact) (c : Control) :
    Booked c s.held (s.stepMerge c).state (s.stepMerge c).control := by
  unfold stepMerge
  split
  · exact .of_eq rfl ⟨h.stream, h.queue⟩ rfl
  · rename_i top queue hq
    obtain ⟨htop, hrest, hheld⟩ := h.unqueue hq
    simp only
    split
    · rename_i row rest hp
      obtain ⟨hr, hm⟩ := htop.pop hp
      split
      · rename_i he
        refine .of_release ?_ (yieldRow_booked hrest row _)
        have := hr.of_isExhausted he
        omega
      · refine Booked.of_release ?_ (yieldRow_booked (hrest.enqueue hr) row _)
        rw [held_enqueue]
        omega
    · rename_i hp
      split
      · refine .of_eq rfl hrest ?_
        have ht : top.memory = 0 := htop.of_pop?_eq_none hp
        change held { s with queue } = s.held
        omega
      · exact ask_booked h ..

theorem step_booked (h : s.Exact) (c : Control) :
    Booked c s.held (s.step c).state (s.step c).control := by
  unfold step
  split
  · exact .of_eq rfl h rfl
  · exact stepPlain_booked h c
  · exact ask_booked h ..
  · exact stepMerge_booked h c

/-! ## Batches -/

/-- Feeds that join the merge go to the queue and nowhere else. -/
theorem foldl_enqueue_eq (feeds : List Feed) (s : Scan) :
    feeds.foldl enqueue s = { s with
      queue := feeds.foldl (fun queue f => queue.push (Feed.compare s.specs) f) s.queue } := by
  induction feeds generalizing s with
  | nil => rfl
  | cons f rest ih => exact ih (s.enqueue f)

theorem foldl_enqueue_booked (feeds : List Feed) (h : s.Exact) (hf : ∀ f ∈ feeds, f.Exact) :
    (feeds.foldl enqueue s).Exact ∧
      (feeds.foldl enqueue s).held = s.held + (feeds.map Feed.memory).sum := by
  induction feeds generalizing s with
  | nil => exact ⟨h, rfl⟩
  | cons f rest ih =>
    obtain ⟨he, hh⟩ := ih (h.enqueue (hf f (List.mem_cons_self ..)))
      fun g hg => hf g (List.mem_cons_of_mem _ hg)
    refine ⟨he, hh.trans ?_⟩
    rw [held_enqueue, List.map_cons, List.sum_cons]
    omega

theorem ofPartition_exact (id : Int) (rows : List Value) (key : Option Bytes) :
    (Feed.ofPartition id rows key).Exact := rfl

/-- What is said of a share that has a feed is said of the feed. -/
theorem partitionFeed_eq {x : Int × List Value × Option Bytes} {f : Feed}
    (h : partitionFeed? x = some f) : f = .ofPartition x.1 x.2.1 x.2.2 := by
  unfold partitionFeed? at h
  split at h
  · cases h
  · cases h
    rfl

theorem memory_partitionFeed (x : Int × List Value × Option Bytes) :
    ((partitionFeed? x).toList.map Feed.memory).sum = sizeOfRows x.2.1 := by
  unfold partitionFeed?
  split
  · rfl
  · simp [Feed.ofPartition]

/-- The counts that pass are not negative, and are those of partitions that differ and are new. -/
theorem checkCounts_eq_ok {seen : List Int} {reports : List (Int × Int)} :
    checkCounts seen reports = .ok () ↔ (∀ r ∈ reports, 0 ≤ r.2) ∧
      (reports.map (·.1)).Nodup ∧ ∀ id ∈ reports.map (·.1), id ∉ seen := by
  induction reports generalizing seen with
  | nil => exact ⟨fun _ => ⟨nofun, List.nodup_nil, nofun⟩, fun _ => rfl⟩
  | cons r rest ih =>
    simp only [List.map_cons, List.forall_mem_cons, List.nodup_cons]
    unfold checkCounts
    split
    · rename_i hr
      exact iff_of_false (by simp) fun h => absurd h.1.1 (by omega)
    · rename_i hr
      split
      · rename_i hs
        exact iff_of_false (by simp) fun h => h.2.2.1 (by simpa using hs)
      · rename_i hs
        rw [ih]
        constructor
        · rintro ⟨hn, hd, hnew⟩
          refine ⟨⟨by omega, hn⟩, ⟨fun hm => hnew _ hm (List.mem_cons_self ..), hd⟩,
            by simpa using hs, fun id hid hm => hnew id hid (List.mem_cons_of_mem _ hm)⟩
        · rintro ⟨⟨-, hn⟩, ⟨hd, hrest⟩, -, hnew⟩
          refine ⟨hn, hrest, fun id hid hm => ?_⟩
          rcases List.mem_cons.1 hm with rfl | hm
          · exact hd hid
          · exact hnew id hid hm

/-- Counts that are not negative and sum up to the number of rows cut them into slices that follow
one another, and cut nothing off. -/
theorem cut_slices {ids counts : List Int} {keys : List (Option Bytes)} {rows : List Value}
    (hc : counts.length = ids.length) (hk : keys.length = ids.length)
    (hn : ∀ n ∈ counts, 0 ≤ n) (hs : counts.sum = rows.length) :
    (cut ids counts keys rows).map (·.1) = ids ∧
      (cut ids counts keys rows).map (fun x => (x.2.1.length : Int)) = counts ∧
      (cut ids counts keys rows).map (·.2.2) = keys ∧
      (cut ids counts keys rows).flatMap (·.2.1) = rows := by
  induction ids generalizing counts keys rows with
  | nil =>
    obtain rfl := List.length_eq_zero_iff.1 hc
    obtain rfl := List.length_eq_zero_iff.1 hk
    obtain rfl : rows = [] := List.length_eq_zero_iff.1 (by simpa using hs.symm)
    exact ⟨rfl, rfl, rfl, rfl⟩
  | cons id ids ih =>
    match counts, keys, hc, hk with
    | count :: counts, key :: keys, hc, hk =>
      obtain ⟨hcount, hrest⟩ := List.forall_mem_cons.1 hn
      have hsum : 0 ≤ counts.sum := List.sum_nonneg hrest
      rw [List.sum_cons] at hs
      have hdrop : counts.sum = (rows.drop count.toNat).length := by
        rw [List.length_drop]
        omega
      have htake : ((rows.take count.toNat).length : Int) = count := by
        rw [List.length_take]
        omega
      obtain ⟨hids, hcounts, hkeys, hrows⟩ := ih (Nat.succ.inj hc) (Nat.succ.inj hk) hrest hdrop
      simp only [cut, List.map_cons, List.flatMap_cons, hids, hcounts, hkeys, hrows, htake,
        List.take_append_drop, and_self]

/-- The feeds of some slices hold the rows of all of them. -/
theorem memory_partitionFeeds (slices : List (Int × List Value × Option Bytes)) :
    ((slices.filterMap partitionFeed?).map Feed.memory).sum =
      sizeOfRows (slices.flatMap (·.2.1)) := by
  induction slices with
  | nil => rfl
  | cons x rest ih =>
    have hx := memory_partitionFeed x
    rw [List.flatMap_cons, sizeOfRows_append, ← ih, ← hx, List.filterMap_cons]
    cases partitionFeed? x <;> simp

/-- What is so of a report that was let pass. -/
structure Reported (s : Scan) (batch : Batch) (info : Phase1Info) : Prop where
  phase1 : batch.phase1 = some info
  counts : info.counts.length = info.partitions.length
  keys : info.keys.length = info.partitions.length
  nonneg : ∀ r ∈ info.partitions.zip info.counts, 0 ≤ r.2
  nodup : info.partitions.Nodup
  new : ∀ id ∈ info.partitions, id ∉ s.discovered
  sum : info.counts.sum = batch.rows.length
  more : info.inPhase1 = true → batch.continuation.isSome

theorem reported_of_check {batch : Batch} {info : Phase1Info}
    (h : s.checkPhase1 batch = .ok info) : s.Reported batch info := by
  unfold checkPhase1 at h
  cases hp : batch.phase1 with
  | none =>
    rw [hp] at h
    cases h
  | some reported =>
    simp only [hp] at h
    split at h
    · cases h
    rename_i hlen
    obtain ⟨_, hcounts, h⟩ := ok_of_bind h
    split at h
    · cases h
    rename_i hsum
    split at h
    · cases h
    rename_i hmore
    cases h
    simp only [bne_iff_ne, Bool.or_eq_true, not_or, ne_eq, not_not] at hlen hsum
    obtain ⟨hn, hd, hnew⟩ := checkCounts_eq_ok.1 hcounts
    rw [List.map_fst_zip (Nat.le_of_eq hlen.1.symm)] at hd hnew
    exact ⟨hp, hlen.1, hlen.2, hn, hd, hnew, hsum, fun hi => by
      simpa [hi, Option.isSome_iff_ne_none] using hmore⟩

theorem Reported.counts_nonneg {batch : Batch} {info : Phase1Info} (h : s.Reported batch info) :
    ∀ n ∈ info.counts, 0 ≤ n := by
  have hn : ∀ n ∈ (info.partitions.zip info.counts).map (·.2), 0 ≤ n :=
    List.forall_mem_map.2 h.nonneg
  rwa [List.map_snd_zip (Nat.le_of_eq h.counts)] at hn

theorem addPartitions_booked {batch : Batch} {info : Phase1Info} (h : s.Exact)
    (hc : s.checkPhase1 batch = .ok info) :
    (s.addPartitions info batch).Exact ∧
      (s.addPartitions info batch).held = s.held + sizeOfRows batch.rows := by
  have hr := reported_of_check hc
  obtain ⟨he, hh⟩ := foldl_enqueue_booked
    ((cut info.partitions info.counts info.keys batch.rows).filterMap partitionFeed?) h (by
      intro f hf
      obtain ⟨x, -, hx⟩ := List.mem_filterMap.1 hf
      rw [partitionFeed_eq hx]
      exact ofPartition_exact ..)
  rw [memory_partitionFeeds, (cut_slices hr.counts hr.keys hr.counts_nonneg hr.sum).2.2.2] at hh
  exact ⟨⟨he.stream, he.queue⟩, hh⟩

theorem stagePhase1_booked (h : s.Exact) (c : Control) (batch : Batch) :
    Booked c s.held (s.stagePhase1 c batch).2.1 (s.stagePhase1 c batch).2.2 := by
  unfold stagePhase1
  split
  · exact .of_eq rfl h rfl
  · rename_i info hc
    split
    · rename_i hr
      exact .of_eq (Control.ledger_of_refused hr) h rfl
    · rename_i hr
      obtain ⟨he, hh⟩ := addPartitions_booked h hc
      simp only
      split
      · exact .of_charge hr rfl he hh
      · exact .of_charge hr rfl ⟨he.stream, he.queue⟩ hh

theorem addVirtualScans_booked (h : s.Exact) (c : Control) (scans : List VirtualScan) :
    Booked c s.held (s.addVirtualScans c scans).2.1 (s.addVirtualScans c scans).2.2 := by
  induction scans generalizing s c with
  | nil => exact .of_eq rfl h rfl
  | cons scan rest ih =>
    unfold addVirtualScans
    split
    · exact .of_eq rfl h rfl
    · rename_i id _
      have he : (s.enqueue (.ofVirtualScan id scan)).Exact := h.enqueue rfl
      have hh : (s.enqueue (.ofVirtualScan id scan)).held = s.held := held_enqueue ..
      have hs : c.Settles (c.emit (.virtualScanSeeded id scan.shard scan.partition)) s.held
          (s.enqueue (.ofVirtualScan id scan)).held := by
        rw [hh]
        exact .of_eq rfl _
      exact (ih (s := { s.enqueue (.ofVirtualScan id scan) with nextVirtualId := idAfter id })
        ⟨he.stream, he.queue⟩ _).after hs

theorem stageMerge_booked (h : s.Exact) (c : Control) (batch : Batch) :
    Booked c s.held (s.stageMerge c batch).2.1 (s.stageMerge c batch).2.2 := by
  unfold stageMerge
  split
  · exact .of_eq rfl h rfl
  · rename_i top queue hq
    obtain ⟨htop, hrest, hheld⟩ := h.unqueue hq
    simp only
    split
    · rename_i hr
      refine .of_eq (Control.ledger_of_refused hr) (hrest.enqueue htop) ?_
      exact (held_enqueue ..).trans hheld.symm
    · rename_i hr
      have he := hrest.enqueue (htop.stage batch.rows batch.continuation)
      have hh : ({ s with queue } : Scan).held + (top.stage batch.rows batch.continuation).memory =
          s.held + sizeOfRows batch.rows := by
        rw [hheld, Nat.add_assoc]
        rfl
      rw [← held_enqueue] at hh
      have hs := Control.settles_charge hr s.held
      rw [← hh] at hs
      obtain ⟨he', hs'⟩ := addVirtualScans_booked (s := { enqueue { s with queue }
        (top.stage batch.rows batch.continuation) with
          rowsStaged := s.rowsStaged +
            if s.distribution == .allPartitions then batch.rows.length else 0
          bytesStaged := s.bytesStaged +
            if s.distribution == .allPartitions then sizeOfRows batch.rows else 0 })
        ⟨he.stream, he.queue⟩ _ batch.virtualScans
      exact ⟨he', hs.trans hs'⟩

theorem stagePlain_booked (h : s.Exact) (c : Control) (batch : Batch) :
    Booked c s.held (s.stagePlain c batch).2.1 (s.stagePlain c batch).2.2 := by
  unfold stagePlain
  split
  · rename_i hr
    exact .of_eq (Control.ledger_of_refused hr) h rfl
  · rename_i hr
    refine .of_charge hr rfl ⟨h.stream.stage .., h.queue⟩ ?_
    change held { s with stream := s.stream.stage batch.rows batch.continuation } = _
    simp only [held, Feed.stage, duplicateMemory]
    omega

theorem deliver_booked (h : s.Exact) (c : Control) (batch : Batch) :
    Booked c s.held (s.deliver c batch).2.1 (s.deliver c batch).2.2 := by
  unfold deliver
  split
  · exact stagePlain_booked h c batch
  · exact stagePhase1_booked h c batch
  · exact stageMerge_booked h c batch
  · exact .of_eq rfl h rfl

end Scan
end ShardQuery
