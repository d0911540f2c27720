import Mathlib
import ShardQuery.Proofs.Merge.Sizing
import ShardQuery.Proofs.Operator.Leaf

/-!
The queue of a merge of shards never holds two feeds that are level. Where the rows do not tell two
feeds apart, the ids do: virtual scans get the numbers above those of all shards, one after the
other, until 31 bits do not hold the next one.
-/

namespace ShardQuery

/-- The id that an event gives to a virtual scan. -/
def Event.seededId? : Event → Option Int
  | .virtualScanSeeded id _ _ => some id
  | _ => none

namespace Control

/-- All ids that were given to virtual scans, in the order in which they were given. -/
def seededIds (c : Control) : List Int := c.events.reverse.filterMap Event.seededId?

variable (c : Control)

@[simp] theorem seededIds_emit (e : Event) :
    (c.emit e).seededIds = c.seededIds ++ (Event.seededId? e).toList := by
  cases h : Event.seededId? e <;> simp [seededIds, emit, h]

@[simp] theorem seededIds_charge (n : Nat) : (c.charge n).2.seededIds = c.seededIds := by
  unfold charge
  split
  · rfl
  · simp [Event.seededId?]

end Control

/-! ## Strict orders -/

/-- A comparison orders some elements strictly: it tells all of them from each other. -/
structure StrictOn {α : Type} (cmp : α → α → Ordering) (xs : List α) : Prop where
  eq_iff : ∀ x ∈ xs, ∀ y ∈ xs, cmp x y = .eq ↔ x = y
  swap : ∀ x ∈ xs, ∀ y ∈ xs, cmp y x = (cmp x y).swap
  trans : ∀ x ∈ xs, ∀ y ∈ xs, ∀ z ∈ xs, cmp x y = .lt → cmp y z = .lt → cmp x z = .lt

theorem StrictOn.of_transCmp {α : Type} {cmp : α → α → Ordering} [Std.TransCmp cmp] {xs : List α}
    (h : ∀ x ∈ xs, ∀ y ∈ xs, cmp x y = .eq → x = y) : StrictOn cmp xs where
  eq_iff x hx y hy := by
    refine ⟨h x hx y hy, ?_⟩
    rintro rfl
    exact Std.ReflCmp.compare_self
  swap _ _ _ _ := Std.OrientedCmp.eq_swap
  trans _ _ _ _ _ _ hxy hyz := Std.TransCmp.lt_trans hxy hyz

/-- Where the order is strict, the element on top is the one that comes before all others. -/
theorem Heap.top?_eq_some_iff {α : Type} {cmp : α → α → Ordering} [Std.TransCmp cmp] {h : Heap α}
    {x : α} (ho : h.Ordered cmp) (hs : StrictOn cmp h.toList) :
    h.top? = some x ↔ x ∈ h.toList ∧ ∀ y ∈ h.toList, y ≠ x → cmp x y = .lt := by
  have hmem {a : α} (ha : h.top? = some a) : a ∈ h.toList :=
    List.mem_of_head? (h.top?_eq_head? ▸ ha)
  constructor
  · intro hx
    refine ⟨hmem hx, fun y hy hne => ?_⟩
    have hle := ho.top_isLE hx y hy
    cases hc : cmp x y with
    | lt => rfl
    | eq => exact (hne ((hs.eq_iff x (hmem hx) y hy).1 hc).symm).elim
    | gt =>
      rw [hc] at hle
      cases hle
  · rintro ⟨hx, hleast⟩
    cases ha : h.top? with
    | none =>
      rw [Heap.top?_eq_none.1 ha] at hx
      cases hx
    | some a =>
      by_contra hne
      have hlt := hleast a (hmem ha) fun h => hne (congrArg some h)
      have hle := ho.top_isLE ha x hx
      rw [hs.swap x hx a (hmem ha), hlt] at hle
      cases hle

/-- Feeds are level only if they have the same id. -/
theorem Feed.id_eq_of_compare {specs : List SortSpec} {f g : Feed}
    (h : f.compare specs g = .eq) : f.id = g.id := by
  unfold Feed.compare at h
  split at h
  · exact Std.LawfulEqCmp.eq_of_compare h
  · cases h
  · cases h
  · exact Std.LawfulEqCmp.eq_of_compare (Ordering.then_eq_eq.1 h).2

/-- Feeds whose ids differ are ordered strictly. -/
theorem Feed.strictOn_compare {specs : List SortSpec} {fs : List Feed}
    (h : (fs.map Feed.id).Nodup) : StrictOn (Feed.compare specs) fs :=
  .of_transCmp fun _ hf _ hg hc => List.inj_on_of_nodup_map h hf hg (id_eq_of_compare hc)

theorem Feed.compare_of_rows {specs : List SortSpec} {f g : Feed} (hf : f.rows = [])
    (hg : g.rows ≠ []) : f.compare specs g = .lt := by
  unfold Feed.compare
  rw [hf]
  cases h : g.rows with
  | nil => exact (hg h).elim
  | cons row rows => rfl

theorem Feed.id_of_pop? {f g : Feed} {row : Value} (h : f.pop? = some (row, g)) : g.id = f.id := by
  unfold Feed.pop? at h
  split at h
  · cases h
  · cases h
    rfl

namespace Scan
open Exchange

/-! ## What can become of a scan -/

/-- What can happen to a scan under some control: it takes a step, takes in a batch or is closed. -/
inductive Moves (s : Scan) (c : Control) : Scan → Control → Prop
  | step : Moves s c (s.step c).state (s.step c).control
  | deliver (batch : Batch) : Moves s c (s.deliver c batch).2.1 (s.deliver c batch).2.2
  | close : Moves s c (s.close c).1 (s.close c).2

/-- A scan of some shards, and the ids that it has given to virtual scans until now. Nothing is
assumed of the servers or of what the operators above do with the control. -/
inductive Reachable (reg : Nat) (info : ReceiveInfo) (shards : List Int) :
    Scan → List Int → Prop
  | start {s : Scan} (h : Scan.ofInfo reg info shards = .ok s) : Reachable reg info shards s []
  | move {s t : Scan} {c d : Control} {given new : List Int}
    (h : Reachable reg info shards s given) (hm : s.Moves c t d)
    (hn : d.seededIds = c.seededIds ++ new) : Reachable reg info shards t (given ++ new)

/-- A scan of sorted shards that has given some ids to virtual scans. -/
structure Numbered (info : ReceiveInfo) (shards given : List Int) (s : Scan) : Prop where
  specs : s.specs = info.specs
  phase : s.phase = .merging ∨ s.phase = .done
  ordered : s.queue.Ordered (Feed.compare s.specs)
  -- Where the shards differ, so do all ids on the right, and with them those in the queue.
  ids : (s.queue.toList.map Feed.id).Subperm (shards ++ given)
  counted : given = (List.range given.length).map fun k : Nat => firstVirtualId shards + k
  fits : ∀ id ∈ given, id < 2 ^ 31
  next : s.nextVirtualId = idAfter (firstVirtualId shards + given.length - 1)

/-- What becomes of the feeds of a merge when a batch comes for the first one of them, by the
failure that is reported. -/
inductive Takes (shards given : List Int) (top : Feed) (rest : List Feed) (c : Control)
    (batch : Batch) (new : List Int) : Option QueryError → List Feed → Prop
  /-- The budget refuses the batch. -/
  | refused {e : QueryError} {fs : List Feed}
    (hc : (c.charge (sizeOfRows batch.rows)).1 = some e) (hn : new = [])
    (hf : fs.Perm (top :: rest)) : Takes shards given top rest c batch new (some e) fs
  /-- All virtual scans get an id. -/
  | all {fs : List Feed}
    (hc : (c.charge (sizeOfRows batch.rows)).1 = none)
    (hn : new.length = batch.virtualScans.length)
    (hf : fs.Perm (List.zipWith .ofVirtualScan new batch.virtualScans ++
      top.stage batch.rows batch.continuation :: rest)) :
    Takes shards given top rest c batch new none fs
  /-- Some virtual scans get an id, and then the numbers are used up. -/
  | ranOut {fs : List Feed}
    (hc : (c.charge (sizeOfRows batch.rows)).1 = none)
    (hn : new.length < batch.virtualScans.length)
    (hlast : 2 ^ 31 ≤ firstVirtualId shards + (given ++ new).length)
    (hf : fs.Perm (List.zipWith .ofVirtualScan new batch.virtualScans ++
      top.stage batch.rows batch.continuation :: rest)) :
    Takes shards given top rest c batch new
      (some (.protocol "no virtual scan id left above the highest shard id")) fs

/-- The feeds of a merge of shards in their order. -/
structure Ranked (info : ReceiveInfo) (shards given : List Int) (s : Scan) : Prop where
  specs : s.specs = info.specs
  /-- No two feeds have the same id. -/
  distinct : (s.queue.toList.map Feed.id).Nodup
  sources : ∀ f ∈ s.queue.toList, f.id ∈ shards ∨ f.id ∈ given
  /-- No id is given twice. -/
  increasing : given.Pairwise (· < ·)
  above : ∀ id ∈ given, ∀ shard ∈ shards, shard < id
  fits : ∀ id ∈ given, id < 2 ^ 31
  strict : StrictOn (Feed.compare info.specs) s.queue.toList
  empty_first : ∀ f ∈ s.queue.toList, ∀ g ∈ s.queue.toList, f.rows = [] → g.rows ≠ [] →
    f.compare info.specs g = .lt
  /-- The feed on top is the one that comes before all others. -/
  top : ∀ f, s.queue.top? = some f ↔
    f ∈ s.queue.toList ∧ ∀ g ∈ s.queue.toList, g ≠ f → f.compare info.specs g = .lt

section
variable {reg : Nat} {info : ReceiveInfo} {shards given : List Int} {s t : Scan} {c d : Control}
  {batch : Batch} {top : Feed} {failure : Option QueryError}

theorem enqueue_perm (s : Scan) (f : Feed) :
    (s.enqueue f).queue.toList.Perm (f :: s.queue.toList) :=
  Heap.push_perm ..

/-! ## Ids that are given -/

theorem yieldRow_seededIds (s : Scan) (row : Value) (c : Control) :
    (s.yieldRow row c).control.seededIds = c.seededIds := by
  unfold yieldRow
  split
  · rfl
  · split
    · simp [Event.seededId?]
    · rfl
    · rename_i cost _ _
      have hids := c.seededIds_charge cost
      split <;> rename_i hc <;> rw [hc] at hids <;> exact hids

theorem ask_seededIds (s : Scan) (c : Control) (limit : Except QueryError Nat)
    (request : Nat → FetchRequest) : (s.ask c limit request).control.seededIds = c.seededIds := by
  unfold ask
  split
  · rfl
  · split <;> rfl

/-- Ids are given only when a batch comes. -/
theorem step_seededIds (s : Scan) (c : Control) :
    (s.step c).control.seededIds = c.seededIds := by
  unfold step
  split
  · rfl
  · unfold stepPlain
    split
    · exact yieldRow_seededIds ..
    · split
      · rfl
      · exact ask_seededIds ..
  · exact ask_seededIds ..
  · unfold stepMerge
    split
    · rfl
    · simp only
      split
      · exact yieldRow_seededIds ..
      · split
        · rfl
        · exact ask_seededIds ..

namespace Numbered

theorem mem_given (h : Numbered info shards given s) {id : Int} (hid : id ∈ given) :
    ∃ k : Nat, id = firstVirtualId shards + k := by
  rw [h.counted] at hid
  obtain ⟨k, -, rfl⟩ := List.mem_map.1 hid
  exact ⟨k, rfl⟩

theorem above (h : Numbered info shards given s) :
    ∀ id ∈ given, ∀ shard ∈ shards, shard < id := by
  intro id hid shard hshard
  obtain ⟨k, rfl⟩ := h.mem_given hid
  have := lt_firstVirtualId hshard
  omega

theorem increasing (h : Numbered info shards given s) : given.Pairwise (· < ·) := by
  rw [h.counted, List.pairwise_map]
  exact List.pairwise_lt_range.imp fun hlt => by omega

theorem nodup (h : Numbered info shards given s) (hn : shards.Nodup) :
    (shards ++ given).Nodup := by
  refine List.nodup_append.2 ⟨hn, h.increasing.imp (ne_of_lt ·), fun shard hs id hid => ?_⟩
  exact ne_of_lt (h.above id hid shard hs)

theorem distinct (h : Numbered info shards given s) (hn : shards.Nodup) :
    (s.queue.toList.map Feed.id).Nodup := by
  obtain ⟨ids, hp, hs⟩ := h.ids
  exact hp.nodup_iff.1 (hs.nodup (h.nodup hn))

theorem ranked (h : Numbered info shards given s) (hn : shards.Nodup) :
    Ranked info shards given s := by
  have hstrict : StrictOn (Feed.compare info.specs) s.queue.toList :=
    Feed.strictOn_compare (h.distinct hn)
  refine
    { specs := h.specs
      distinct := h.distinct hn
      sources := fun f hf => ?_
      increasing := h.increasing
      above := h.above
      fits := h.fits
      strict := hstrict
      empty_first := fun _ _ _ _ => Feed.compare_of_rows
      top := fun f => Heap.top?_eq_some_iff (h.specs ▸ h.ordered) hstrict }
  exact List.mem_append.1 (h.ids.subset (List.mem_map_of_mem hf))

/-! ## What happens to the queue -/

/-- Another queue of feeds with the same ids, or some of them. -/
theorem requeue (h : Numbered info shards given s) {queue : Heap Feed}
    (ho : queue.Ordered (Feed.compare s.specs))
    (hp : (queue.toList.map Feed.id).Subperm (s.queue.toList.map Feed.id)) :
    Numbered info shards given { s with queue } :=
  { h with ordered := ho, ids := hp.trans h.ids }

theorem finish (h : Numbered info shards given s) :
    Numbered info shards given { s with phase := .done } :=
  { h with phase := .inr rfl }

theorem popped {queue : Heap Feed} (h : Numbered info shards given s)
    (hq : s.queue.pop? (Feed.compare s.specs) = some (top, queue)) :
    Numbered info shards given { s with queue } :=
  h.requeue (Heap.pop?_ordered h.ordered hq)
    (((List.sublist_cons_self _ _).subperm.trans ((Heap.pop?_perm hq).map Feed.id).symm.subperm))

/-- The feed on top goes back with other rows. -/
theorem replaced {queue : Heap Feed} {f : Feed} (h : Numbered info shards given s)
    (hq : s.queue.pop? (Feed.compare s.specs) = some (top, queue)) (hf : f.id = top.id) :
    Numbered info shards given (Scan.enqueue { s with queue } f) := by
  refine h.requeue (Heap.push_ordered f (Heap.pop?_ordered h.ordered hq)) ?_
  have hpush := (enqueue_perm { s with queue } f).map Feed.id
  have hpop := ((Heap.pop?_perm hq).map Feed.id).symm
  rw [List.map_cons, hf] at hpush
  exact (hpush.trans hpop).subperm

theorem recount (h : Numbered info shards given s) (rowsStaged bytesStaged : Nat) :
    Numbered info shards given { s with rowsStaged, bytesStaged } :=
  { h with }

/-- The set of primary keys has no part in this. -/
theorem yieldRow (h : Numbered info shards given s) (row : Value) (c : Control) :
    Numbered info shards given (s.yieldRow row c).state := by
  unfold Scan.yieldRow
  split
  · exact h
  · split
    · exact h
    · exact h
    · split
      · exact { h with }
      · exact h

theorem step (h : Numbered info shards given s) (c : Control) :
    Numbered info shards given (s.step c).state := by
  unfold Scan.step
  rcases h.phase with hp | hp <;> simp only [hp]
  · unfold stepMerge
    split
    · exact h.finish
    · rename_i top queue hq
      simp only
      split
      · rename_i row rest hr
        refine yieldRow ?_ _ _
        split
        · exact h.popped hq
        · exact h.replaced hq (Feed.id_of_pop? hr)
      · split
        · exact h.popped hq
        · rw [ask_state]
          exact h
  · exact h

/-- A virtual scan gets the number above all those that were given. -/
theorem seed {id : Int} (h : Numbered info shards given s) (hid : s.nextVirtualId = some id)
    (scan : VirtualScan) :
    Numbered info shards (given ++ [id])
      { s.enqueue (.ofVirtualScan id scan) with nextVirtualId := idAfter id } := by
  have hnext := h.next
  rw [hid, eq_comm, idAfter_eq_some_iff] at hnext
  obtain ⟨hid, hfits⟩ := hnext
  have hid : id = firstVirtualId shards + given.length := by omega
  refine ⟨h.specs, h.phase, Heap.push_ordered _ h.ordered, ?_, ?_, ?_, ?_⟩
  · have hpush := (s.enqueue_perm (.ofVirtualScan id scan)).map Feed.id
    have hlast : (id :: (shards ++ given)).Perm (shards ++ (given ++ [id])) := by
      rw [← List.append_assoc]
      exact (List.perm_append_singleton id _).symm
    exact hpush.subperm.trans (((List.subperm_cons id).2 h.ids).trans hlast.subperm)
  · rw [List.length_append, List.length_singleton, List.range_succ, List.map_append, ← h.counted,
      hid]
    rfl
  · intro i hi
    rcases List.mem_append.1 hi with hi | hi
    · exact h.fits i hi
    · rw [List.mem_singleton.1 hi]
      exact hfits
  · have hlast : id = firstVirtualId shards + (given ++ [id]).length - 1 := by
      rw [List.length_append, List.length_singleton]
      omega
    exact congrArg idAfter hlast

/-- Virtual scans get their ids in the order in which they were announced, until there are none. -/
theorem addVirtualScans {scans : List VirtualScan} (h : Numbered info shards given s)
    (ha : s.addVirtualScans c scans = (failure, t, d)) :
    ∃ new, d.seededIds = c.seededIds ++ new ∧ Numbered info shards (given ++ new) t ∧
      t.queue.toList.Perm (List.zipWith .ofVirtualScan new scans ++ s.queue.toList) ∧
      (failure = none ∧ new.length = scans.length ∨
        failure = some (.protocol "no virtual scan id left above the highest shard id") ∧
          new.length < scans.length ∧ 2 ^ 31 ≤ firstVirtualId shards + (given ++ new).length) := by
  induction scans generalizing s c given with
  | nil =>
    cases ha
    exact ⟨[], (List.append_nil _).symm, (List.append_nil given).symm ▸ h, .refl _, .inl ⟨rfl, rfl⟩⟩
  | cons scan rest ih =>
    unfold Scan.addVirtualScans at ha
    split at ha
    · rename_i hnone
      cases ha
      refine ⟨[], (List.append_nil _).symm, (List.append_nil given).symm ▸ h, .refl _,
        .inr ⟨rfl, Nat.succ_pos _, ?_⟩⟩
      have hlast := h.next
      rw [hnone, eq_comm, idAfter_eq_none_iff, Int.sub_add_cancel] at hlast
      rwa [List.append_nil]
    · rename_i id hid
      obtain ⟨new, hnew, hnumbered, hperm, hfailure⟩ := ih (h.seed hid scan) ha
      rw [List.append_assoc] at hnumbered
      refine ⟨id :: new, ?_, hnumbered, ?_, ?_⟩
      · rw [hnew, Control.seededIds_emit, List.append_assoc]
        rfl
      · refine hperm.trans ?_
        have hpush := s.enqueue_perm (.ofVirtualScan id scan)
        exact (hpush.append_left _).trans List.perm_middle
      · rw [List.append_assoc] at hfailure
        simpa using hfailure

/-- A batch for the feed on top of the queue. -/
theorem stageMerge {queue : Heap Feed} (h : Numbered info shards given s)
    (hq : s.queue.pop? (Feed.compare s.specs) = some (top, queue))
    (hd : s.stageMerge c batch = (failure, t, d)) :
    ∃ new, d.seededIds = c.seededIds ++ new ∧ Numbered info shards (given ++ new) t ∧
      Takes shards given top queue.toList c batch new failure t.queue.toList := by
  unfold Scan.stageMerge at hd
  simp only [hq] at hd
  split at hd
  · rename_i e c' hcharge
    cases hd
    refine ⟨[], ?_, (List.append_nil given).symm ▸ h.replaced hq rfl, .refused ?_ rfl ?_⟩
    · have hids := Control.seededIds_charge c (sizeOfRows batch.rows)
      rw [hcharge] at hids
      rw [hids, List.append_nil]
    · rw [hcharge]
    · exact Heap.push_perm ..
  · rename_i c' hcharge
    obtain ⟨new, hnew, hnumbered, hperm, hfailure⟩ :=
      ((h.replaced (f := top.stage batch.rows batch.continuation) hq rfl).recount _ _).addVirtualScans
        hd
    have hids := Control.seededIds_charge c (sizeOfRows batch.rows)
    rw [hcharge] at hids
    have hfeeds := hperm.trans ((Heap.push_perm ..).append_left _)
    refine ⟨new, hnew.trans (congrArg (· ++ new) hids), hnumbered, ?_⟩
    have hc : (c.charge (sizeOfRows batch.rows)).1 = none := by rw [hcharge]
    obtain ⟨rfl, hall⟩ | ⟨rfl, hless, hlast⟩ := hfailure
    · exact .all hc hall hfeeds
    · exact .ranOut hc hless hlast hfeeds

theorem close (h : Numbered info shards given s) (c : Control) :
    Numbered info shards given (s.close c).1 :=
  { h with
    phase := .inr rfl
    ordered := trivial
    ids := List.nil_subperm }

/-- A move that gives no ids. -/
theorem unseeded (h : Numbered info shards given s) (hd : d.seededIds = c.seededIds) :
    ∃ new, d.seededIds = c.seededIds ++ new ∧ Numbered info shards (given ++ new) s :=
  ⟨[], by rw [hd, List.append_nil], by rwa [List.append_nil]⟩

theorem deliver (h : Numbered info shards given s) (hd : s.deliver c batch = (failure, t, d)) :
    ∃ new, d.seededIds = c.seededIds ++ new ∧ Numbered info shards (given ++ new) t := by
  unfold Scan.deliver at hd
  rcases h.phase with hp | hp <;> simp only [hp] at hd
  · cases hq : s.queue.pop? (Feed.compare s.specs) with
    | none =>
      simp only [Scan.stageMerge, hq] at hd
      cases hd
      exact h.unseeded rfl
    | some popped =>
      obtain ⟨new, hnew, hnumbered, -⟩ := h.stageMerge hq hd
      exact ⟨new, hnew, hnumbered⟩
  · cases hd
    exact h.unseeded rfl

/-- Whatever happens to a scan, the ids that it gives follow on those that were given. -/
theorem move (h : Numbered info shards given s) (hm : s.Moves c t d) :
    ∃ new, d.seededIds = c.seededIds ++ new ∧ Numbered info shards (given ++ new) t := by
  cases hm with
  | step => exact (h.step c).unseeded (step_seededIds s c)
  | deliver batch => exact h.deliver rfl
  | close => exact (h.close c).unseeded rfl

/-- A scan of sorted shards begins with their feeds, and without virtual scans. -/
theorem ofInfo (hd : info.distribution = .allShards) (hs : info.specs ≠ [])
    (h : Scan.ofInfo reg info shards = .ok s) : Numbered info shards [] s := by
  unfold Scan.ofInfo at h
  simp only at h
  split at h
  · rename_i hnil
    exact (hs hnil).elim
  · rename_i hsingle _
    rw [hd] at hsingle
    cases hsingle
  · rename_i hpartitions _
    rw [hd] at hpartitions
    cases hpartitions
  · split at h
    · cases h
    · cases h
      obtain ⟨hordered, hfeeds⟩ := Heap.ofList_spec (Feed.compare info.specs)
        (shards.map fun shard => ({ id := shard, target := .shard shard } : Feed))
      refine ⟨rfl, .inl rfl, hordered, ?_, rfl, List.forall_mem_nil _, ?_⟩
      · have hids := hfeeds.map Feed.id
        rw [List.map_map, show Feed.id ∘ _ = id from rfl, List.map_id] at hids
        rw [List.append_nil]
        exact hids.subperm
      · simp [firstVirtualId]

end Numbered

theorem Reachable.numbered (hd : info.distribution = .allShards) (hs : info.specs ≠ [])
    (h : Reachable reg info shards s given) : Numbered info shards given s := by
  induction h with
  | start h => exact .ofInfo hd hs h
  | move h hm hn ih =>
    -- The log has them all, so the ids that the move gave are those that were counted.
    obtain ⟨new, hnew, hnumbered⟩ := ih.move hm
    obtain rfl := List.append_cancel_left (hn.symm.trans hnew)
    exact hnumbered

/-- In a merge of sorted shards that differ, whatever the servers answer, the queue is ordered
strictly, so that the feed on top is determined. A batch is only asked for on behalf of that feed,
and it is still on top when the batch comes. Virtual scans get ids above those of all shards and
above those given before; where there is none left that 31 bits hold, the merge fails. -/
theorem Reachable.strictly_ranked (hd : info.distribution = .allShards) (hs : info.specs ≠ [])
    (hn : shards.Nodup) (h : Reachable reg info shards s given) :
    Ranked info shards given s ∧
      ∀ c r, (s.step c).signal = .request r →
        ∃ top rest limit, (s.step c).state = s ∧ s.queue.top? = some top ∧
          s.queue.toList.Perm (top :: rest) ∧ top.rows = [] ∧ r = top.request limit ∧
          ∀ d batch failure t e, s.deliver d batch = (failure, t, e) →
            ∃ new, e.seededIds = d.seededIds ++ new ∧ Ranked info shards (given ++ new) t ∧
              Takes shards given top rest d batch new failure t.queue.toList := by
  have hnumbered := h.numbered hd hs
  refine ⟨hnumbered.ranked hn, fun c r hr => ?_⟩
  obtain ⟨o, ha⟩ := asks_of_request hr
  have hphase : s.phase ≠ .plain ∧ s.phase ≠ .discovering := by
    rcases hnumbered.phase with hp | hp <;> simp [hp]
  cases ha with
  | stream limit hp => exact (hphase.1 hp).elim
  | discovery limit hp => exact (hphase.2 hp).elim
  | @merge top queue limit hp hq hremote =>
    obtain ⟨hdiscovering, -⟩ | ⟨top', hw, -⟩ := discovers_or_wants hphase.1 hr
    · exact (hphase.2 hdiscovering).elim
    obtain ⟨queue', hq'⟩ := hw.popped
    obtain ⟨rfl, rfl⟩ := Prod.ext_iff.1 (Option.some.inj (hq.symm.trans hq'))
    refine ⟨top, queue.toList, limit, state_of_request hr, Heap.pop?_top hq, Heap.pop?_perm hq,
      hw.empty, rfl, fun d batch failure t e hdel => ?_⟩
    rw [Scan.deliver, hp] at hdel
    obtain ⟨new, hnew, ht, htakes⟩ := hnumbered.stageMerge hq hdel
    exact ⟨new, hnew, ht.ranked hn, htakes⟩

end

/-! A merge in which one id is left for two virtual scans. -/

namespace LastId

def info : ReceiveInfo :=
  { distribution := .allShards, specs := [{ field := "k" }], primaryKey := [] }

def shards : List Int := [3, 2147483646]

def scan : Scan :=
  { reg := 0
    distribution := .allShards
    specs := info.specs
    phase := .merging
    duplicates := none
    stream := { id := 0, target := .any }
    phase1Continuation := none
    discovered := []
    queue := .ofList (Feed.compare info.specs)
      [{ id := 3, target := .shard 3 }, { id := 2147483646, target := .shard 2147483646 }]
    nextVirtualId := some 2147483647
    rowsStaged := 0
    bytesStaged := 0 }

def batch : Batch :=
  { rows := []
    virtualScans := [⟨3, 1, [], [], false⟩, ⟨3, 2, [], [], false⟩] }

def control : Control := .ofConfig {} 1

end LastId

open LastId in
/-- The first virtual scan gets the id, and the second one is refused. -/
theorem Reachable.strictly_ranked_lastId :
    Scan.ofInfo 0 info shards = .ok scan ∧
      (scan.step control).signal = .request { target := .shard 3, limit := 100 } ∧
      (scan.deliver control batch).1 =
        some (.protocol "no virtual scan id left above the highest shard id") ∧
      (scan.deliver control batch).2.2.seededIds = [2147483647] ∧
      Ranked info shards [2147483647] (scan.deliver control batch).2.1 := by
  have hinfo : Scan.ofInfo 0 info shards = .ok scan := rfl
  have hasks : (scan.step control).signal = .request { target := .shard 3, limit := 100 } := by cbv
  have hids : (scan.deliver control batch).2.2.seededIds = [2147483647] := by cbv
  refine ⟨hinfo, hasks, by cbv, hids, ?_⟩
  obtain ⟨-, hfetch⟩ := (Reachable.start hinfo).strictly_ranked rfl (List.cons_ne_nil _ _)
    (by decide)
  obtain ⟨_, _, _, -, -, -, -, -, htakes⟩ := hfetch control _ hasks
  obtain ⟨new, hnew, hranked, -⟩ := htakes control batch _ _ _ rfl
  obtain rfl : new = [2147483647] := hnew.symm.trans hids
  exact hranked

end Scan
end ShardQuery
