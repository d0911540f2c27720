import Mathlib
import ShardQuery.Proofs.Merge.Chains
import ShardQuery.Proofs.Merge.Merging

/-!
The merge of sorted shards returns what one stable sort of all sources would.
-/

namespace ShardQuery

/-- The sources of a scan over some shards in the order of their ids: the shards, and behind them
the virtual scans in the order in which they are announced. -/
def Source.ofShards (source : Int → Source) (shards : List Int) : List Source :=
  inOrder (shards.mergeSort.map source)

section
variable {source : Int → Source} {shards : List Int}

theorem pairwise_lt_mergeSort {ids : List Int} (h : ids.Nodup) :
    ids.mergeSort.Pairwise (· < ·) := by
  have hle : ids.mergeSort.Pairwise (· ≤ ·) := by
    have : ids.mergeSort.Pairwise fun a b => decide (a ≤ b) = true :=
      List.pairwise_mergeSort (fun a b c hab hbc => by simp only [decide_eq_true_eq] at *; omega)
        (fun a b => by simp only [Bool.or_eq_true, decide_eq_true_eq]; omega) ids
    simpa using this
  have hne : ids.mergeSort.Pairwise (· ≠ ·) := (List.mergeSort_perm ids _).nodup_iff.2 h
  exact (hle.and hne).imp fun ⟨h1, h2⟩ => lt_of_le_of_ne h1 h2

/-- A merge of shards before its first request. -/
theorem Merge.due_shards {m : Merge} {log : List FetchRequest} (hnodup : shards.Nodup)
    (hsorted : ∀ s ∈ Source.ofShards source shards, SortedRows m.specs s.rows)
    (hserving : ∃ pages, pages + log.length = m.answers ∧
      Serving m.servers m.limits pages log (shards.map fun id => .ofShard id (source id)))
    (hgoal : m.goal = sortRows m.specs ((Source.ofShards source shards).flatMap (·.rows))) :
    m.Due log [] (shards.mergeSort.map fun id => .ofShard id (source id)) := by
  have hopened : (shards.mergeSort.map fun id => Line.ofShard id (source id)).flatMap (·.opened) =
      (shards.mergeSort.map source).flatMap (·.opened) := by
    rw [List.flatMap_map, List.flatMap_map]
    rfl
  have hall : Source.ofShards source shards = shards.mergeSort.map source ++
      Source.inOrder ((shards.mergeSort.map source).flatMap (·.opened)) := by
    have := Source.inOrder_append (shards.mergeSort.map source) []
    rwa [List.append_nil, List.nil_append] at this
  refine ⟨?_, fun l hl => ?_, fun s hs => hsorted s ?_, ?_, ?_⟩
  · rw [List.map_map]
    exact (List.map_id _).symm ▸ pairwise_lt_mergeSort hnodup
  · obtain ⟨id, hid, rfl⟩ := List.mem_map.1 hl
    refine ⟨hsorted (source id) ?_, fun _ => rfl, nofun, nofun⟩
    rw [hall]
    exact List.mem_append_left _ (List.mem_map_of_mem hid)
  · rw [hall, ← hopened]
    exact List.mem_append_right _ hs
  · obtain ⟨pages, hpages, hserving⟩ := hserving
    refine ⟨pages, hpages, hserving.perm ?_⟩
    have hsupplies : (shards.mergeSort.map fun id => Line.ofShard id (source id)).flatMap
        (·.supplies) = shards.mergeSort.map fun id => .ofShard id (source id) := by
      rw [List.flatMap_map, List.map_eq_flatMap]
      rfl
    rw [hsupplies]
    exact (List.mergeSort_perm shards _).symm.map _
  · have hrows : (shards.mergeSort.map fun id => Line.ofShard id (source id)).flatMap (·.rows) =
        (shards.mergeSort.map source).flatMap (·.rows) := by
      rw [List.flatMap_map, List.flatMap_map]
      rfl
    rw [hgoal, hopened, hrows, hall, List.flatMap_append, List.nil_append]

/-- The feeds of the shards lie below all ids that virtual scans can get. -/
theorem lt_nextVirtualId {id next : Int} (hid : id ∈ shards)
    (h : Scan.idAfter (shards.max?.getD 0) = some next) : id < next := by
  obtain ⟨rfl, -⟩ := Scan.idAfter_eq_some_iff.1 h
  exact Exchange.lt_firstVirtualId hid

/-- A scan over sorted shards begins as a merge with a line for each shard. -/
theorem Scan.merging_ofInfo {m : Merge} {reg : Nat} {info : ReceiveInfo} {s : Scan}
    {log : List FetchRequest} (h : Scan.ofInfo reg info shards = .ok s)
    (hdistribution : info.distribution = .allShards) (hspecs : info.specs ≠ [])
    (hkey : info.primaryKey = []) (hm : m.specs = info.specs)
    (hdue : m.Due log [] (shards.mergeSort.map fun id => .ofShard id (source id))) :
    s.Merging m reg .allShards log []
      (shards.mergeSort.map fun id => .ofShard id (source id)) := by
  obtain ⟨spec, rest, hcons⟩ := List.exists_cons_of_ne_nil hspecs
  simp only [ofInfo, hdistribution, hcons, hkey] at h
  split at h
  · cases h
  · cases h
    obtain ⟨ho, hp⟩ := Heap.ofList_spec (Feed.compare (spec :: rest))
      (shards.map fun shard => ({ id := shard, target := .shard shard } : Feed))
    refine ⟨⟨rfl, rfl, hcons.symm.trans hm.symm, rfl⟩, rfl, ⟨ho, ?_⟩, fun _ id hid l hl => ?_, hdue⟩
    · refine hp.trans ?_
      rw [List.map_map]
      exact (List.mergeSort_perm shards _).symm.map _
    · obtain ⟨shard, hshard, rfl⟩ := List.mem_map.1 hl
      exact lt_nextVirtualId (List.mem_mergeSort.1 hshard) hid

end

/-- Whatever pages the servers cut, whatever the batch limit and whatever the caller asks of single
calls: a drain of sorted shards that has enough calls and no failure ends, and its rows are those of
all sources in one stable sort, where the source with the lower id goes first among equals. -/
theorem Site.drain_mergesShards (servers : Servers) (errand : Errand) (w : Site) {reg : Nat}
    {info : ReceiveInfo} (source : Int → Source) (pages : Nat) (options : List CallOptions)
    (hroot : errand.plan.plan.root = .receive reg info)
    (hdistribution : info.distribution = .allShards) (hspecs : info.specs ≠ [])
    (hkey : info.primaryKey = []) (hshards : errand.plan.plan.shards.Nodup)
    (hsorted : ∀ s ∈ Source.ofShards source errand.plan.plan.shards, SortedRows info.specs s.rows)
    (hserving : Serving servers (· = w.client.config.batchLimit) pages w.log
      (errand.plan.plan.shards.map fun id => .ofShard id (source id)))
    (hcalls : pages + ((Source.ofShards source errand.plan.plan.shards).flatMap (·.rows)).length <
      options.length)
    (hok : ∀ e, (w.drain servers errand options none).standing ≠ .failed e) :
    (w.drain servers errand options none).standing = .complete ∧
      (w.drain servers errand options none).rows = sortRows info.specs
        ((Source.ofShards source errand.plan.plan.shards).flatMap (·.rows)) := by
  let m : Merge :=
    { servers
      limits := (· = w.client.config.batchLimit)
      specs := info.specs
      answers := pages + w.log.length
      goal := sortRows info.specs
        ((Source.ofShards source errand.plan.plan.shards).flatMap (·.rows)) }
  have hlength : m.goal.length =
      ((Source.ofShards source errand.plan.plan.shards).flatMap (·.rows)).length :=
    List.length_mergeSort _
  refine drain_completes (Scan.Merges m reg .allShards) pages options hroot
    (fun hreg s c log rows hI hc hroom hconfig => ?_) (fun s hs => ?_)
    (fun s log rows hI => hI.bound) (by rw [hlength]; exact hcalls) hok
  · refine hI.step hc (hroom ▸ hreg) fun hd limit hlimit => ?_
    rw [Scan.mergeLimit, hd] at hlimit
    cases hlimit
    exact congrArg Config.batchLimit hconfig
  · exact .inl ⟨_, Scan.merging_ofInfo hs hdistribution hspecs hkey rfl
      (Merge.due_shards hshards hsorted ⟨pages, rfl, hserving⟩ rfl)⟩

namespace TwoShards

def row (k : Int32) (origin : String) : Value := .map [("k", .integer k), ("origin", .text origin)]

def scan : VirtualScan := ⟨1, 7, [], [], false⟩

def source : Int → Source
  | 1 => .mk [row 1 "first", row 3 "first"] [(scan, .mk [row 2 "scan"] [])]
  | _ => .mk [row 2 "second"] []

/-- The first page of the first shard is empty, but it announces a virtual scan. -/
def servers : Servers := fun _ request =>
  match request.target, request.continuation, request.virtualScan with
  | .shard 1, none, none => .ok { rows := [], continuation := some [1], virtualScans := [scan] }
  | .shard 1, some _, _ => .ok { rows := [row 1 "first", row 3 "first"] }
  | .shard 1, none, some _ => .ok { rows := [row 2 "scan"] }
  | _, _, _ => .ok { rows := [row 2 "second"] }

def errand : Errand :=
  { newId := default
    plan := ⟨0,
      { root := .receive 0 ⟨.allShards, [{ field := "k" }], []⟩
        registers := 1
        shards := [2, 1] }⟩ }

def site : Site := ⟨{ config := {} }, []⟩

def calls : List CallOptions := List.replicate 9 { rowLimit := some 1 }

/-- The sources wherever the servers may be with them. -/
def known : List Supply :=
  [.ofShard 1 (source 1), { target := .shard 1, continuation := some [1], rows := (source 1).rows },
    .ofShard 2 (source 2), .ofScan (scan, .mk [row 2 "scan"] [])]

theorem serving : Serving servers (· = site.client.config.batchLimit) 4 site.log
    ([2, 1].map fun id => .ofShard id (source id)) := by
  refine Serving.of_weight (· ∈ known) (fun s => 1 + 2 * s.announced.length)
    (fun s limit log batch hs _ hb => ?_) (fun s _ => by omega) _ ?_ ?_
  · simp only [known, List.mem_cons, List.not_mem_nil, or_false] at hs
    rcases hs with rfl | rfl | rfl | rfl <;> cases hb
    · refine ⟨⟨⟨_, rfl⟩, by simp, rfl⟩, ?_, by decide⟩
      simp [Supply.rest, Supply.ofShard, source, known, Source.announced, Source.rows]
    · exact ⟨⟨⟨_, rfl⟩, fun _ => rfl, rfl⟩, List.forall_mem_nil _, by decide⟩
    · exact ⟨⟨⟨_, rfl⟩, fun _ => rfl, rfl⟩, List.forall_mem_nil _, by decide⟩
    · exact ⟨⟨⟨_, rfl⟩, fun _ => rfl, rfl⟩, List.forall_mem_nil _, by decide⟩
  · simp [known]
  · decide

end TwoShards

open TwoShards in
/-- Equal rows of a shard and of a virtual scan, handed on one by one: the shard goes first. -/
theorem Site.drain_twoShards :
    (site.drain servers errand calls none).standing = .complete ∧
      (site.drain servers errand calls none).rows =
        [row 1 "first", row 2 "second", row 2 "scan", row 3 "first"] := by
  have hcomplete : (site.drain servers errand calls none).standing = .complete := by
    cbv
  have hall : Source.ofShards source errand.plan.plan.shards =
      [source 1, source 2, .mk [row 2 "scan"] []] := by
    cbv
  have hsorted : ∀ s ∈ Source.ofShards source errand.plan.plan.shards,
      SortedRows [{ field := "k" }] s.rows := by
    rw [hall]
    simp only [List.forall_mem_cons, SortedRows]
    decide
  have h := drain_mergesShards servers errand site source 4 calls rfl rfl (by decide) rfl
    (by decide) hsorted serving ?_ ?_
  · rw [hall] at h
    refine ⟨h.1, h.2.trans ?_⟩
    cbv
  · rw [hall]
    decide
  · rw [hcomplete]
    simp

end ShardQuery
