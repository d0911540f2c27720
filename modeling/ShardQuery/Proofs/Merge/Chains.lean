import ShardQuery.Proofs.Merge.Books
import ShardQuery.Proofs.Merge.Feed
import ShardQuery.Proofs.Merge.Heap

/-!
The requests that a scan makes of each of its sources. They form a chain: the first one says what
there is to say about the source, and each later one carries the continuation that came with the
batch before it. Where no continuation came, the source is not asked again.
-/

namespace ShardQuery

/-- A source of a scan. -/
inductive Origin where
  /-- The one stream of a plain scan. -/
  | stream
  /-- The discovery of partitions. -/
  | discovery
  | shard (id : Int)
  | partition (id : Int)
  /-- A virtual scan, by the id that the query gives to it. -/
  | virtualScan (id : Int)
  deriving DecidableEq

/-- Whether the rows of a source are merged with others. -/
def Origin.merges : Origin → Bool
  | .stream | .discovery => false
  | .shard _ | .partition _ | .virtualScan _ => true

/-- A request, the source that it is for, and the batch that came of it, if there was one. -/
structure Exchange where
  origin : Origin
  request : FetchRequest
  batch : Option Batch

namespace Exchange

/-- The virtual scans that a batch announces, if they are taken in. -/
def announces (e : Exchange) : List VirtualScan :=
  if e.origin.merges then (e.batch.map (·.virtualScans)).getD [] else []

/-- A batch of the discovery phase reports a partition, with a key for the rows still to come. -/
def Reports (e : Exchange) (id : Int) (key : Bytes) : Prop :=
  e.origin = .discovery ∧ ∃ batch info, e.batch = some batch ∧ batch.phase1 = some info ∧
    (id, some key) ∈ info.partitions.zip info.keys

/-! Exchanges are kept with the latest one first. -/

variable {shards : List Int} {past : List Exchange} {o : Origin} {r : FetchRequest} {e : Exchange}

/-- The last batch of a source. -/
def lastBatch (o : Origin) : List Exchange → Option Batch
  | [] => none
  | e :: past =>
    if e.origin = o then e.batch.or (lastBatch o past) else lastBatch o past

/-- All virtual scans that were announced, in the order of their announcement. -/
def announced : List Exchange → List VirtualScan
  | [] => []
  | e :: past => announced past ++ e.announces

/-- The id of the first virtual scan that is announced. Those after it are counted on. -/
def firstVirtualId (shards : List Int) : Int := shards.max?.getD 0 + 1

theorem lt_firstVirtualId {id : Int} (h : id ∈ shards) : id < firstVirtualId shards := by
  obtain ⟨top, ht⟩ := Option.isSome_iff_exists.1 (List.isSome_max?_of_mem h)
  have hle : id ≤ top := (List.max?_eq_some_iff.1 ht).2 id h
  rw [firstVirtualId, ht, Option.getD_some]
  omega

/-- The first request for a source: one for a shard of the plan, for a partition that was reported,
with the key that came with it, or for a virtual scan that was announced. -/
inductive Opens (shards : List Int) (past : List Exchange) : Origin → FetchRequest → Prop
  | stream (limit : Nat) : Opens shards past .stream { target := .any, limit }
  | discovery (limit : Nat) : Opens shards past .discovery { target := .sortPhase1, limit }
  | shard {id : Int} (limit : Nat) (h : id ∈ shards) :
    Opens shards past (.shard id) { target := .shard id, limit }
  | partition {id : Int} {key : Bytes} (limit : Nat) (h : ∃ e ∈ past, e.Reports id key) :
    Opens shards past (.partition id)
      { target := .partition id, limit, continuation := some key }
  | virtualScan {n : Nat} {scan : VirtualScan} (limit : Nat)
    (h : (announced past)[n]? = some scan) :
    Opens shards past (.virtualScan (firstVirtualId shards + n))
      { target := .shard scan.shard, limit, virtualScan := some scan }

/-- A request that a source is due for: the first one, or one that goes where the first one went,
with the continuation of the last batch and without a virtual scan. -/
inductive Due (shards : List Int) (past : List Exchange) (o : Origin) : FetchRequest → Prop
  | first {r : FetchRequest} (hl : lastBatch o past = none) (ho : Opens shards past o r) :
    Due shards past o r
  | next {r : FetchRequest} {batch : Batch} {key : Bytes} (limit : Nat)
    (hl : lastBatch o past = some batch) (hk : batch.continuation = some key)
    (ho : Opens shards past o r) :
    Due shards past o { r with limit, continuation := some key, virtualScan := none }

/-- Every request was due when it was made. -/
inductive Chained (shards : List Int) : List Exchange → Prop
  | nil : Chained shards []
  | cons {e : Exchange} {past : List Exchange} (h : Chained shards past)
    (hd : Due shards past e.origin e.request) : Chained shards (e :: past)

theorem lastBatch_cons_of_ne (h : e.origin ≠ o) :
    lastBatch o (e :: past) = lastBatch o past := if_neg h

theorem lastBatch_cons_none (h : e.batch = none) : lastBatch o (e :: past) = lastBatch o past := by
  simp [lastBatch, h]

theorem lastBatch_cons_self {batch : Batch} :
    lastBatch o (⟨o, r, some batch⟩ :: past) = some batch := by
  simp [lastBatch]

theorem lastBatch_eq_none (h : ∀ e ∈ past, e.origin ≠ o) : lastBatch o past = none := by
  induction past with
  | nil => rfl
  | cons e past ih =>
    rw [lastBatch_cons_of_ne (h e (List.mem_cons_self ..))]
    exact ih fun x hx => h x (List.mem_cons_of_mem _ hx)

theorem Opens.mono (h : Opens shards past o r) (e : Exchange) : Opens shards (e :: past) o r := by
  cases h with
  | stream limit => exact .stream limit
  | discovery limit => exact .discovery limit
  | shard limit h => exact .shard limit h
  | partition limit h =>
    obtain ⟨x, hx, hr⟩ := h
    exact .partition limit ⟨x, List.mem_cons_of_mem _ hx, hr⟩
  | virtualScan limit h =>
    obtain ⟨hn, -⟩ := List.getElem?_eq_some_iff.1 h
    exact .virtualScan limit (by rw [announced, List.getElem?_append_left hn, h])

/-- What comes of the requests for other sources, or nothing at all, leaves a source as it is. -/
theorem Due.mono (h : Due shards past o r) (he : lastBatch o (e :: past) = lastBatch o past) :
    Due shards (e :: past) o r := by
  cases h with
  | first hl ho => exact .first (he.trans hl) (ho.mono e)
  | next limit hl hk ho => exact .next limit (he.trans hl) hk (ho.mono e)

theorem Due.opens (h : Due shards past o r) :
    ∃ first, Opens shards past o first ∧ first.target = r.target := by
  cases h with
  | first _ ho => exact ⟨_, ho, rfl⟩
  | next _ _ _ ho => exact ⟨_, ho, rfl⟩

/-- After a batch with a continuation there is another request. -/
theorem Due.follow {batch : Batch} {key : Bytes} (h : Due shards past o r)
    (hk : batch.continuation = some key) (limit : Nat) :
    Due shards (⟨o, r, some batch⟩ :: past) o
      { target := r.target, limit, continuation := some key } := by
  obtain ⟨first, ho, ht⟩ := h.opens
  rw [← ht]
  exact .next limit lastBatch_cons_self hk (ho.mono _)

end Exchange

open Exchange

namespace Feed

/-- The source that a feed is for. -/
def origin (f : Feed) : Origin :=
  match f.target, f.virtualScan with
  | .any, _ => .stream
  | .sortPhase1, _ => .discovery
  | .partition id, _ => .partition id
  | .shard id, none => .shard id
  | .shard _, some _ => .virtualScan f.id

/-- If there may be more rows to come, the feed knows how to ask for them. -/
def IsDue (shards : List Int) (past : List Exchange) (f : Feed) : Prop :=
  f.hasRemote = true → ∀ limit, Due shards past f.origin (f.request limit)

variable {shards : List Int} {past : List Exchange} {f g : Feed}

theorem IsDue.mono {e : Exchange} (h : f.IsDue shards past)
    (he : lastBatch f.origin (e :: past) = lastBatch f.origin past) :
    f.IsDue shards (e :: past) := fun hr limit => (h hr limit).mono he

theorem origin_pop? {row : Value} (h : f.pop? = some (row, g)) : g.origin = f.origin := by
  unfold pop? at h
  split at h
  · cases h
  · cases h
    rfl

theorem IsDue.pop? {row : Value} (h : f.IsDue shards past) (hp : f.pop? = some (row, g)) :
    g.IsDue shards past := by
  unfold Feed.pop? at hp
  split at hp
  · cases hp
  · cases hp
    exact h

theorem IsDue.stage {batch : Batch} {limit : Nat} (h : f.IsDue shards past)
    (hr : f.hasRemote = true) :
    (f.stage batch.rows batch.continuation).IsDue shards
      (⟨f.origin, f.request limit, some batch⟩ :: past) := by
  intro hc n
  obtain ⟨key, hk⟩ : ∃ key, batch.continuation = some key :=
    Option.isSome_iff_exists.1 (by simpa [hasRemote, Feed.stage] using hc)
  have := (h hr limit).follow hk n
  rw [request, Feed.stage, hk]
  exact this

end Feed

/-- A source that is not to be met with as a new one: a partition that was found, or a virtual scan
among so many. -/
def Origin.Known (shards found : List Int) (n : Nat) : Origin → Prop
  | .stream | .discovery | .shard _ => True
  | .partition id => id ∈ found
  | .virtualScan id => id < firstVirtualId shards + n

theorem Origin.Known.mono {shards found found' : List Int} {n n' : Nat} {o : Origin}
    (h : o.Known shards found n) (hf : ∀ id ∈ found, id ∈ found') (hn : n ≤ n') :
    o.Known shards found' n' := by
  cases o with
  | stream | discovery | shard => trivial
  | partition id => exact hf id h
  | virtualScan id =>
    have : id < firstVirtualId shards + n := h
    change id < firstVirtualId shards + n'
    omega

/-- Feeds for sources that differ from each other, each with what its next request takes. -/
structure Sourced (shards : List Int) (past : List Exchange) (found : List Int) (n : Nat)
    (fs : List Feed) : Prop where
  due : ∀ f ∈ fs, f.IsDue shards past
  merges : ∀ f ∈ fs, f.origin.merges = true
  known : ∀ f ∈ fs, f.origin.Known shards found n
  distinct : (fs.map Feed.origin).Nodup

namespace Sourced
variable {shards found found' : List Int} {past : List Exchange} {n n' : Nat} {f g : Feed}
  {fs gs : List Feed}

theorem perm (h : Sourced shards past found n fs) (hp : fs.Perm gs) :
    Sourced shards past found n gs :=
  ⟨fun f hf => h.due f (hp.mem_iff.2 hf), fun f hf => h.merges f (hp.mem_iff.2 hf),
    fun f hf => h.known f (hp.mem_iff.2 hf), (hp.map _).nodup_iff.1 h.distinct⟩

theorem tail (h : Sourced shards past found n (f :: fs)) : Sourced shards past found n fs :=
  ⟨fun g hg => h.due g (List.mem_cons_of_mem _ hg),
    fun g hg => h.merges g (List.mem_cons_of_mem _ hg),
    fun g hg => h.known g (List.mem_cons_of_mem _ hg), (List.nodup_cons.1 h.distinct).2⟩

theorem cons (h : Sourced shards past found n fs) (hd : f.IsDue shards past)
    (hm : f.origin.merges = true) (hk : f.origin.Known shards found n)
    (hn : f.origin ∉ fs.map Feed.origin) : Sourced shards past found n (f :: fs) :=
  ⟨List.forall_mem_cons.2 ⟨hd, h.due⟩, List.forall_mem_cons.2 ⟨hm, h.merges⟩,
    List.forall_mem_cons.2 ⟨hk, h.known⟩, List.nodup_cons.2 ⟨hn, h.distinct⟩⟩

/-- A feed of the same source in the place of the first one. -/
theorem replace (h : Sourced shards past found n (f :: fs)) (ho : g.origin = f.origin)
    (hd : g.IsDue shards past) : Sourced shards past found n (g :: fs) := by
  have hf : f ∈ f :: fs := List.mem_cons_self ..
  exact h.tail.cons hd (ho ▸ h.merges f hf) (ho ▸ h.known f hf)
    (ho ▸ (List.nodup_cons.1 h.distinct).1)

theorem mono (h : Sourced shards past found n fs) (hf : ∀ id ∈ found, id ∈ found')
    (hn : n ≤ n') : Sourced shards past found' n' fs :=
  { h with known := fun f hf' => (h.known f hf').mono hf hn }

theorem append (hf : Sourced shards past found n fs) (hg : Sourced shards past found n gs)
    (hd : ∀ o ∈ fs.map Feed.origin, ∀ o' ∈ gs.map Feed.origin, o ≠ o') :
    Sourced shards past found n (fs ++ gs) :=
  ⟨List.forall_mem_append.2 ⟨hf.due, hg.due⟩, List.forall_mem_append.2 ⟨hf.merges, hg.merges⟩,
    List.forall_mem_append.2 ⟨hf.known, hg.known⟩, by
      rw [List.map_append]
      exact List.nodup_append.2 ⟨hf.distinct, hg.distinct, hd⟩⟩

/-- An exchange with another source. -/
theorem other (h : Sourced shards past found n fs) (e : Exchange)
    (he : e.batch = none ∨ e.origin ∉ fs.map Feed.origin) :
    Sourced shards (e :: past) found n fs := by
  refine { h with due := fun f hf => (h.due f hf).mono ?_ }
  rcases he with he | he
  · exact lastBatch_cons_none he
  · exact lastBatch_cons_of_ne fun ho => he (List.mem_map.2 ⟨f, hf, ho.symm⟩)

end Sourced

namespace Scan

/-- What a scan knows of its sources after some exchanges, having taken in so many virtual scans. -/
structure Tracks (shards : List Int) (past : List Exchange) (n : Nat) (s : Scan) : Prop where
  stream : s.phase = .plain → s.stream.origin = .stream ∧ s.stream.IsDue shards past
  discovery : s.phase = .discovering → ∀ limit, Due shards past .discovery (s.phase1Request limit)
  queue : Sourced shards past s.discovered n s.queue.toList
  known : ∀ e ∈ past, e.origin.Known shards s.discovered n
  next : ∀ id, s.nextVirtualId = some id → id = firstVirtualId shards + n

/-- A request of a scan, and the source that it is for. -/
inductive Asks (s : Scan) : Origin → FetchRequest → Prop
  | stream (limit : Nat) (hp : s.phase = .plain) (hr : s.stream.hasRemote = true) :
    Asks s .stream (s.stream.request limit)
  | discovery (limit : Nat) (hp : s.phase = .discovering) :
    Asks s .discovery (s.phase1Request limit)
  | merge {top : Feed} {queue : Heap Feed} (limit : Nat) (hp : s.phase = .merging)
    (hq : s.queue.pop? (Feed.compare s.specs) = some (top, queue)) (hr : top.hasRemote = true) :
    Asks s top.origin (top.request limit)

theorem request_of_ask {s : Scan} {c : Control} {limit : Except QueryError Nat}
    {request : Nat → FetchRequest} {r : FetchRequest}
    (h : (s.ask c limit request).signal = .request r) : ∃ n, r = request n := by
  unfold ask at h
  split at h
  · cases h
  · cases limit with
    | ok n =>
      cases h
      exact ⟨n, rfl⟩
    | error e => cases h

theorem not_request_of_yieldRow {s : Scan} {row : Value} {c : Control} {r : FetchRequest} :
    (s.yieldRow row c).signal ≠ .request r := by
  intro h
  have := s.yieldRow_asks row c
  rw [h] at this
  cases this

theorem asks_of_request {s : Scan} {c : Control} {r : FetchRequest}
    (h : (s.step c).signal = .request r) : ∃ o, s.Asks o r := by
  unfold step at h
  split at h
  · cases h
  · rename_i hp
    unfold stepPlain at h
    split at h
    · exact (not_request_of_yieldRow h).elim
    · split at h
      · cases h
      · rename_i hr
        obtain ⟨n, rfl⟩ := request_of_ask h
        exact ⟨_, .stream n hp (by simpa using hr)⟩
  · rename_i hp
    obtain ⟨n, rfl⟩ := request_of_ask h
    exact ⟨_, .discovery n hp⟩
  · rename_i hp
    unfold stepMerge at h
    split at h
    · cases h
    · rename_i top queue hq
      simp only at h
      split at h
      · exact (not_request_of_yieldRow h).elim
      · split at h
        · cases h
        · rename_i hr
          obtain ⟨n, rfl⟩ := request_of_ask h
          exact ⟨_, .merge n hp hq (by simpa using hr)⟩

namespace Tracks
variable {shards : List Int} {past : List Exchange} {n : Nat} {s t : Scan} {o : Origin}
  {r : FetchRequest} {c d : Control} {batch : Batch}

theorem due (h : Tracks shards past n s) (ha : s.Asks o r) : Due shards past o r := by
  cases ha with
  | stream limit hp hr =>
    obtain ⟨ho, hd⟩ := h.stream hp
    exact ho ▸ hd hr limit
  | discovery limit hp => exact h.discovery hp limit
  | merge limit hp hq hr =>
    exact h.queue.due _ ((Heap.pop?_perm hq).mem_iff.2 (List.mem_cons_self ..)) hr limit

/-- A request that no batch came of leaves everything to be asked for again. -/
theorem missed (h : Tracks shards past n s) (ho : o.Known shards s.discovered n) :
    Tracks shards (⟨o, r, none⟩ :: past) n s where
  stream hp := ⟨(h.stream hp).1, (h.stream hp).2.mono (lastBatch_cons_none rfl)⟩
  discovery hp limit := (h.discovery hp limit).mono (lastBatch_cons_none rfl)
  queue := h.queue.other _ (.inl rfl)
  known := List.forall_mem_cons.2 ⟨ho, h.known⟩
  next := h.next

/-- What is asked for is known. -/
theorem known_of_asks (h : Tracks shards past n s) (ha : s.Asks o r) :
    o.Known shards s.discovered n := by
  cases ha with
  | stream => trivial
  | discovery => trivial
  | merge limit hp hq hr =>
    exact h.queue.known _ ((Heap.pop?_perm hq).mem_iff.2 (List.mem_cons_self ..))

/-- The set of primary keys has no part in this. -/
theorem yieldRow (h : Tracks shards past n s) (row : Value) (c : Control) :
    Tracks shards past n (s.yieldRow row c).state := by
  unfold Scan.yieldRow
  split
  · exact h
  · split
    · exact h
    · exact h
    · split
      · exact ⟨h.stream, h.discovery, h.queue, h.known, h.next⟩
      · exact h

theorem ask (h : Tracks shards past n s) (c : Control) (limit : Except QueryError Nat)
    (request : Nat → FetchRequest) : Tracks shards past n (s.ask c limit request).state := by
  rw [ask_state]
  exact h

theorem done (h : Tracks shards past n s) : Tracks shards past n { s with phase := .done } :=
  ⟨by simp, by simp, h.queue, h.known, h.next⟩

theorem requeue (h : Tracks shards past n s) {queue : Heap Feed}
    (hq : Sourced shards past s.discovered n queue.toList) :
    Tracks shards past n { s with queue } :=
  ⟨h.stream, h.discovery, hq, h.known, h.next⟩

theorem step (h : Tracks shards past n s) (c : Control) :
    Tracks shards past n (s.step c).state := by
  unfold Scan.step
  split
  · exact h
  · unfold stepPlain
    split
    · rename_i row stream hp
      refine yieldRow (s := { s with stream })
        ⟨fun hph => ?_, h.discovery, h.queue, h.known, h.next⟩ _ _
      obtain ⟨ho, hd⟩ := h.stream hph
      exact ⟨(Feed.origin_pop? hp).trans ho, hd.pop? hp⟩
    · split
      · exact h.done
      · exact h.ask ..
  · exact h.ask ..
  · unfold stepMerge
    split
    · exact h.done
    · rename_i top queue hq
      have hs := h.queue.perm (Heap.pop?_perm hq)
      simp only
      split
      · rename_i row rest hp
        refine yieldRow ?_ _ _
        split
        · exact h.requeue hs.tail
        · refine h.requeue (.perm (hs.replace (Feed.origin_pop? hp) ?_) (Heap.push_perm ..).symm)
          exact (hs.due top (List.mem_cons_self ..)).pop? hp
      · split
        · exact h.requeue hs.tail
        · exact h.ask ..

/-- What a scan knows is not about the control, and a batch it takes in is one of a source it asked.
That of a stream. -/
theorem stagePlain (h : Tracks shards past n s) (hp : s.phase = .plain)
    (hr : s.stream.hasRemote = true) (limit : Nat) (hd : s.stagePlain c batch = (none, t, d)) :
    Tracks shards (⟨.stream, s.stream.request limit, some batch⟩ :: past) n t := by
  unfold Scan.stagePlain at hd
  split at hd
  · cases hd
  · cases hd
    obtain ⟨ho, hdue⟩ := h.stream hp
    refine ⟨fun _ => ⟨ho, ?_⟩, fun hph => ?_, h.queue.other _ (.inr fun hm => ?_),
      List.forall_mem_cons.2 ⟨trivial, h.known⟩, h.next⟩
    · have hstaged : (s.stream.stage batch.rows batch.continuation).IsDue shards
          (⟨s.stream.origin, s.stream.request limit, some batch⟩ :: past) := hdue.stage hr
      rwa [ho] at hstaged
    · rw [show s.phase = .discovering from hph] at hp
      cases hp
    · obtain ⟨f, hf, hfo⟩ := List.mem_map.1 hm
      have := h.queue.merges f hf
      rw [hfo] at this
      cases this

/-- A virtual scan that was announced becomes a source of its own. -/
theorem addVirtualScan {id : Int} {scan : VirtualScan} (h : Tracks shards past n s)
    (hid : s.nextVirtualId = some id) (hscan : (announced past)[n]? = some scan) :
    Tracks shards past (n + 1)
      { s.enqueue (.ofVirtualScan id scan) with nextVirtualId := idAfter id } := by
  have hfirst := h.next id hid
  have hnew {o : Origin} (ho : o.Known shards s.discovered n) : o ≠ .virtualScan id := by
    rintro rfl
    have : id < firstVirtualId shards + n := ho
    omega
  have hdue : (Feed.ofVirtualScan id scan).IsDue shards past := by
    intro _ limit
    refine .first (lastBatch_eq_none fun e he => hnew (h.known e he)) ?_
    rw [show (Feed.ofVirtualScan id scan).origin = .virtualScan id from rfl, hfirst]
    exact .virtualScan limit hscan
  have hq : Sourced shards past s.discovered (n + 1)
      (Feed.ofVirtualScan id scan :: s.queue.toList) := by
    refine (h.queue.mono (fun _ hm => hm) (Nat.le_succ n)).cons hdue rfl ?_ fun hm => ?_
    · change id < firstVirtualId shards + (n + 1 : Nat)
      omega
    · obtain ⟨g, hg, hgo⟩ := List.mem_map.1 hm
      exact hnew (h.queue.known g hg) hgo
  refine ⟨h.stream, h.discovery, hq.perm (Heap.push_perm ..).symm,
    fun e he => (h.known e he).mono (fun _ hm => hm) (Nat.le_succ n), fun id' hid' => ?_⟩
  obtain ⟨rfl, -⟩ := idAfter_eq_some_iff.1 hid'
  rw [hfirst]
  omega

theorem addVirtualScans {scans : List VirtualScan} (h : Tracks shards past n s)
    (hn : (announced past).drop n = scans) (hd : s.addVirtualScans c scans = (none, t, d)) :
    Tracks shards past (n + scans.length) t := by
  induction scans generalizing s c n with
  | nil =>
    cases hd
    exact h
  | cons scan rest ih =>
    unfold Scan.addVirtualScans at hd
    split at hd
    · cases hd
    · rename_i id hid
      have hscan : (announced past)[n]? = some scan := by
        rw [← List.head?_drop, hn]
        rfl
      have hrest : (announced past).drop (n + 1) = rest := by
        rw [← List.tail_drop, hn]
        rfl
      have := ih (h.addVirtualScan hid hscan) hrest hd
      rwa [List.length_cons, Nat.add_comm rest.length, ← Nat.add_assoc]

theorem stageMerge {top : Feed} {queue : Heap Feed}
    (h : Tracks shards past (announced past).length s) (hp : s.phase = .merging)
    (hq : s.queue.pop? (Feed.compare s.specs) = some (top, queue))
    (hr : top.hasRemote = true) (limit : Nat) (hd : s.stageMerge c batch = (none, t, d)) :
    Tracks shards (⟨top.origin, top.request limit, some batch⟩ :: past)
      (announced (⟨top.origin, top.request limit, some batch⟩ :: past)).length t := by
  have hs := h.queue.perm (Heap.pop?_perm hq)
  have htop : top ∈ top :: queue.toList := List.mem_cons_self ..
  have ha : announced (⟨top.origin, top.request limit, some batch⟩ :: past) =
      announced past ++ batch.virtualScans := by
    simp [announced, announces, hs.merges top htop]
  have hk := h.known_of_asks (.merge limit hp hq hr)
  unfold Scan.stageMerge at hd
  simp only [hq] at hd
  split at hd
  · cases hd
  · rw [ha, List.length_append]
    refine addVirtualScans ?_ ?_ hd
    · refine ⟨fun hph => ?_, fun hph => ?_, ?_, List.forall_mem_cons.2 ⟨hk, h.known⟩, h.next⟩
      · rw [show s.phase = .plain from hph] at hp
        cases hp
      · rw [show s.phase = .discovering from hph] at hp
        cases hp
      · have hother := (List.nodup_cons.1 hs.distinct).1
        have hstaged : Sourced shards (⟨top.origin, top.request limit, some batch⟩ :: past)
            s.discovered _ (top.stage batch.rows batch.continuation :: queue.toList) :=
          (hs.tail.other _ (.inr hother)).cons ((hs.due top htop).stage hr) (hs.merges top htop)
            (hs.known top htop) hother
        exact hstaged.perm (Heap.push_perm ..).symm
    · rw [ha, List.drop_left]

end Tracks

/-! ## The discovery of partitions -/

theorem queue_foldl_enqueue (fs : List Feed) (s : Scan) :
    ∃ queue, fs.foldl enqueue s = { s with queue } ∧ queue.toList.Perm (fs ++ s.queue.toList) :=
  ⟨_, foldl_enqueue_eq fs s, Heap.foldl_push_perm fs s.queue⟩

/-- The feeds of the partitions that a batch reports. -/
theorem origin_partitionFeeds (ids counts : List Int) (keys : List (Option Bytes))
    (rows : List Value) :
    (((cut ids counts keys rows).filterMap partitionFeed?).map Feed.origin).Sublist
      (ids.map .partition) ∧
    ∀ f ∈ (cut ids counts keys rows).filterMap partitionFeed?, ∃ id key, (id, key) ∈ ids.zip keys ∧
      ∃ rows, f = .ofPartition id rows key := by
  induction ids generalizing counts keys rows with
  | nil => exact ⟨.slnil, by simp [cut]⟩
  | cons id ids ih =>
    rcases counts with _ | ⟨count, counts⟩
    · exact ⟨List.nil_sublist _, by simp [cut]⟩
    rcases keys with _ | ⟨key, keys⟩
    · exact ⟨List.nil_sublist _, by simp [cut]⟩
    obtain ⟨hs, hf⟩ := ih counts keys (rows.drop count.toNat)
    have hin {f : Feed} (hm : f ∈ (cut ids counts keys (rows.drop count.toNat)).filterMap
        partitionFeed?) : ∃ id' key', (id', key') ∈ (id :: ids).zip (key :: keys) ∧
          ∃ rows, f = .ofPartition id' rows key' := by
      obtain ⟨id', key', hz, hrows⟩ := hf f hm
      exact ⟨id', key', List.mem_cons_of_mem _ hz, hrows⟩
    simp only [cut, List.filterMap_cons]
    cases hp : partitionFeed? (id, rows.take count.toNat, key) with
    | none => exact ⟨hs.cons _, fun f hm => hin hm⟩
    | some g =>
      have hg : g = .ofPartition id (rows.take count.toNat) key := partitionFeed_eq hp
      refine ⟨?_, List.forall_mem_cons.2 ⟨⟨id, key, List.mem_cons_self .., _, hg⟩,
        fun f hm => hin hm⟩⟩
      rw [hg]
      exact hs.cons_cons _

/-- A partition that a batch reports is a new source. -/
theorem Reported.ne_partition {shards : List Int} {n : Nat} {s : Scan} {batch : Batch}
    {info : Phase1Info} {o : Origin} {id : Int} (h : s.Reported batch info)
    (hid : id ∈ info.partitions) (ho : o.Known shards s.discovered n) : o ≠ .partition id := by
  rintro rfl
  exact h.new id hid ho

namespace Tracks
variable {shards : List Int} {past : List Exchange} {n : Nat} {s t : Scan} {o : Origin}
  {r : FetchRequest} {c d : Control} {batch : Batch}

/-- Each partition that a batch reports becomes a source of its own, with its key. -/
theorem sourced_partitions (h : Tracks shards past n s) (limit : Nat)
    {info : Phase1Info} (hr : s.Reported batch info) :
    Sourced shards (⟨.discovery, s.phase1Request limit, some batch⟩ :: past)
      (s.discovered ++ info.partitions) n
      ((cut info.partitions info.counts info.keys batch.rows).filterMap partitionFeed?) := by
  obtain ⟨hs, hf⟩ := origin_partitionFeeds info.partitions info.counts info.keys batch.rows
  refine ⟨fun f hm hrem m => ?_, fun f hm => ?_, fun f hm => ?_, hs.nodup ?_⟩
  · obtain ⟨id, key, hz, rows, rfl⟩ := hf f hm
    have hid : id ∈ info.partitions := (List.of_mem_zip hz).1
    obtain ⟨k, rfl⟩ : ∃ k, key = some k :=
      Option.isSome_iff_exists.1 (by simpa [Feed.hasRemote, Feed.ofPartition] using hrem)
    have hnew : ∀ e ∈ (⟨.discovery, s.phase1Request limit, some batch⟩ :: past : List Exchange),
        e.origin ≠ .partition id :=
      List.forall_mem_cons.2 ⟨by simp, fun e he => hr.ne_partition hid (h.known e he)⟩
    exact .first (lastBatch_eq_none hnew)
      (.partition m ⟨_, List.mem_cons_self .., rfl, batch, info, rfl, hr.phase1, hz⟩)
  · obtain ⟨id, key, -, rows, rfl⟩ := hf f hm
    rfl
  · obtain ⟨id, key, hz, rows, rfl⟩ := hf f hm
    exact List.mem_append_right _ (List.of_mem_zip hz).1
  · exact .map (fun _ _ h => Origin.partition.inj h) hr.nodup

theorem addPartitions (h : Tracks shards past n s) (limit : Nat)
    {info : Phase1Info} (hr : s.Reported batch info) :
    Sourced shards (⟨.discovery, s.phase1Request limit, some batch⟩ :: past)
      (s.discovered ++ info.partitions) n (s.addPartitions info batch).queue.toList := by
  obtain ⟨-, hf⟩ := origin_partitionFeeds info.partitions info.counts info.keys batch.rows
  have hnew := h.sourced_partitions limit hr
  obtain ⟨queue, hq, hperm⟩ := queue_foldl_enqueue
    ((cut info.partitions info.counts info.keys batch.rows).filterMap partitionFeed?) s
  have hqueue : (s.addPartitions info batch).queue = queue := by
    simp only [Scan.addPartitions, hq]
  rw [hqueue]
  refine .perm (.append hnew ((h.queue.other _ (.inr fun hm => ?_)).mono
    (fun _ hm => List.mem_append_left _ hm) (Nat.le_refl n)) fun o hof o' hog hoo => ?_) hperm.symm
  · obtain ⟨f, hfm, ho⟩ := List.mem_map.1 hm
    have := h.queue.merges f hfm
    rw [ho] at this
    cases this
  · obtain ⟨f, hfm, rfl⟩ := List.mem_map.1 hof
    obtain ⟨g, hgm, rfl⟩ := List.mem_map.1 hog
    obtain ⟨id, key, hz, rows, rfl⟩ := hf f hfm
    exact hr.ne_partition (List.of_mem_zip hz).1 (h.queue.known g hgm) hoo.symm

theorem stagePhase1 (h : Tracks shards past n s) (hp : s.phase = .discovering) (limit : Nat)
    (hd : s.stagePhase1 c batch = (none, t, d)) :
    Tracks shards (⟨.discovery, s.phase1Request limit, some batch⟩ :: past) n t := by
  unfold Scan.stagePhase1 at hd
  split at hd
  · cases hd
  · rename_i info hc
    have hr := reported_of_check hc
    have hq := h.addPartitions limit hr
    have hknown : ∀ e ∈ (⟨.discovery, s.phase1Request limit, some batch⟩ :: past : List Exchange),
        e.origin.Known shards (s.discovered ++ info.partitions) n :=
      List.forall_mem_cons.2 ⟨trivial, fun e he =>
        (h.known e he).mono (fun _ hm => List.mem_append_left _ hm) (Nat.le_refl n)⟩
    obtain ⟨queue, hfold, -⟩ := queue_foldl_enqueue
      ((cut info.partitions info.counts info.keys batch.rows).filterMap partitionFeed?) s
    have hs : s.addPartitions info batch = { s with
        queue
        discovered := s.discovered ++ info.partitions
        phase1Continuation := batch.continuation
        rowsStaged := s.rowsStaged + batch.rows.length
        bytesStaged := s.bytesStaged + sizeOfRows batch.rows } := by
      simp only [Scan.addPartitions, hfold]
    rw [hs] at hq
    split at hd
    · cases hd
    · simp only [hs] at hd
      split at hd
      · rename_i hm
        cases hd
        refine ⟨fun hph => ?_, fun _ m => ?_, hq, hknown, h.next⟩
        · rw [show s.phase = .plain from hph] at hp
          cases hp
        · obtain ⟨key, hk⟩ := Option.isSome_iff_exists.1 (hr.more hm)
          have := (h.discovery hp limit).follow hk m
          rw [phase1Request, hk]
          exact this
      · cases hd
        exact ⟨by simp, by simp, hq, hknown, h.next⟩

/-- A batch that is taken in is what its source was asked for. -/
theorem deliver (h : Tracks shards past (announced past).length s) (ha : s.Asks o r)
    (hd : s.deliver c batch = (none, t, d)) :
    Tracks shards (⟨o, r, some batch⟩ :: past)
      (announced (⟨o, r, some batch⟩ :: past)).length t := by
  unfold Scan.deliver at hd
  cases ha with
  | stream limit hp hr =>
    simp only [hp] at hd
    simpa [announced, announces, Origin.merges] using h.stagePlain hp hr limit hd
  | discovery limit hp =>
    simp only [hp] at hd
    simpa [announced, announces, Origin.merges] using h.stagePhase1 hp limit hd
  | merge limit hp hq hr =>
    simp only [hp] at hd
    exact h.stageMerge hp hq hr limit hd

/-- Shards are sources that differ if the shards do, and nothing was asked of them yet. -/
theorem sourced_shards (hn : shards.Nodup) : Sourced shards [] [] 0
    (shards.map fun shard => ({ id := shard, target := .shard shard } : Feed)) := by
  have hshard {f : Feed} (hf : f ∈ shards.map fun shard =>
      ({ id := shard, target := .shard shard } : Feed)) : ∃ id ∈ shards,
        f = { id, target := .shard id } := by
    obtain ⟨id, hid, rfl⟩ := List.mem_map.1 hf
    exact ⟨id, hid, rfl⟩
  refine ⟨fun f hf => ?_, fun f hf => ?_, fun f hf => ?_, ?_⟩
  · obtain ⟨id, hid, rfl⟩ := hshard hf
    exact fun _ limit => .first rfl (.shard limit hid)
  · obtain ⟨id, -, rfl⟩ := hshard hf
    rfl
  · obtain ⟨id, -, rfl⟩ := hshard hf
    trivial
  · rw [List.map_map]
    exact .map (fun _ _ h => Origin.shard.inj h) hn

/-- A scan begins with sources of which nothing was asked yet. -/
theorem ofInfo {reg : Nat} {info : ReceiveInfo}
    (hn : info.distribution = .allShards → info.specs ≠ [] → shards.Nodup)
    (h : Scan.ofInfo reg info shards = .ok s) : Tracks shards [] 0 s := by
  have hnext : ∀ id, idAfter (shards.max?.getD 0) = some id →
      id = firstVirtualId shards + (0 : Nat) := by
    intro id hid
    obtain ⟨rfl, -⟩ := idAfter_eq_some_iff.1 hid
    simp [firstVirtualId]
  have hstream : ({ id := 0, target := .any } : Feed).IsDue shards [] :=
    fun _ limit => .first rfl (.stream limit)
  have hnil : Sourced shards [] [] 0 (Heap.nil : Heap Feed).toList :=
    ⟨List.forall_mem_nil _, List.forall_mem_nil _, List.forall_mem_nil _, List.nodup_nil⟩
  unfold Scan.ofInfo at h
  simp only at h
  split at h
  · cases h
    exact ⟨fun _ => ⟨rfl, hstream⟩, by simp, hnil, List.forall_mem_nil _, hnext⟩
  · cases h
    exact ⟨fun _ => ⟨rfl, hstream⟩, by simp, hnil, List.forall_mem_nil _, hnext⟩
  · cases h
    exact ⟨by simp, fun _ limit => .first rfl (.discovery limit), hnil, List.forall_mem_nil _,
      hnext⟩
  · rename_i hd hs
    split at h
    · cases h
    · cases h
      have hp := (Heap.ofList_spec (Feed.compare info.specs)
        (shards.map fun shard => ({ id := shard, target := .shard shard } : Feed))).2
      exact ⟨by simp, by simp, (sourced_shards (hn hd hs)).perm hp.symm, List.forall_mem_nil _,
        hnext⟩

end Tracks

end Scan
end ShardQuery
