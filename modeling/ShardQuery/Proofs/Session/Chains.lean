import ShardQuery.Proofs.Merge.Chains
import ShardQuery.Proofs.Merge.Shards
import ShardQuery.Proofs.Session.Visits

/-!
The requests that a query makes in all its calls, failed ones among them, are those of its scan. So
for each source they form a chain: no page is asked for again once it has come, and none is passed
over.
-/

namespace ShardQuery
open Exchange

/-- What the step at the bottom receives. -/
def PlanStep.source? : PlanStep → Option ReceiveInfo
  | .receive _ info => some info
  | .select _ input _ _ _ _ | .group _ input _ | .sort _ input _ _ => input.source?
  | _ => none

/-- If the rows of the shards are merged, the plan names each shard once. -/
def Plan.ShardsDistinct (plan : Plan) : Prop :=
  ∀ info, plan.root.source? = some info → info.distribution = .allShards → info.specs ≠ [] →
    plan.shards.Nodup

/-- The scan of a step is made from what the step at the bottom receives. -/
theorem Operator.leaf_ofStep {shards : List Int} : ∀ (step : PlanStep) {op : Operator},
    ofStep shards step = .ok op →
      ∃ reg info, step.source? = some info ∧ Scan.ofInfo reg info shards = .ok op.leaf
  | .select reg source info columns offset limit, op, h => by
    rw [ofStep] at h
    obtain ⟨_, -, h⟩ := ok_of_bind h
    obtain ⟨_, -, h⟩ := ok_of_bind h
    obtain ⟨input, hi, h⟩ := ok_of_bind h
    obtain ⟨_, -, h⟩ := ok_of_bind h
    obtain ⟨_, -, h⟩ := ok_of_bind h
    obtain ⟨r, i, hs, hl⟩ := leaf_ofStep source hi
    cases h
    exact ⟨r, i, hs, hl⟩
  | .group reg input info, op, h => by
    rw [ofStep] at h
    split at h
    · cases h
    · obtain ⟨input, hi, h⟩ := ok_of_bind h
      obtain ⟨r, i, hs, hl⟩ := leaf_ofStep _ hi
      cases h
      exact ⟨r, i, hs, hl⟩
  | .sort reg input specs countMemory, op, h => by
    rw [ofStep] at h
    split at h
    · cases h
    · obtain ⟨input, hi, h⟩ := ok_of_bind h
      obtain ⟨r, i, hs, hl⟩ := leaf_ofStep _ hi
      cases h
      exact ⟨r, i, hs, hl⟩
  | .receive reg info, op, h => by
    rw [ofStep] at h
    obtain ⟨s, hs, h⟩ := ok_of_bind h
    cases h
    exact ⟨reg, info, rfl, hs⟩
  | .const .., _, h | .varRef .., _, h | .externalVarRef .., _, h | .field .., _, h
  | .arith .., _, h | .aggregate .., _, h => by
    rw [ofStep] at h
    all_goals cases h

namespace Query
variable {q r : Query} {rowLimit : Option Nat} {shards : List Int} {past : List Exchange} {n : Nat}

/-- Pulling rows goes on asking for what is due. -/
theorem advance_tracks (rowLimit : Option Nat) (h : q.root.leaf.Tracks shards past n) :
    (q.advance rowLimit).2.root.leaf.Tracks shards past n ∧
      ∀ request, (q.advance rowLimit).1 = .waiting request →
        ∃ o, (q.advance rowLimit).2.root.leaf.Asks o request := by
  obtain ⟨ht, hr⟩ := advance_leaf (P := fun s => s.Tracks shards past n) (fun _ c hs => hs.step c)
    rowLimit h
  refine ⟨ht, fun request he => ?_⟩
  obtain ⟨d, hd⟩ := hr request he
  exact Scan.asks_of_request hd

theorem deliver_tracks {request : FetchRequest} {o : Origin} {batch : Batch} {more : Bool}
    (h : q.root.leaf.Tracks shards past (announced past).length)
    (ha : q.root.leaf.Asks o request) (hd : q.deliver rowLimit batch = (.finished more, r)) :
    r.root.leaf.Tracks shards (⟨o, request, some batch⟩ :: past)
      (announced (⟨o, request, some batch⟩ :: past)).length := by
  obtain ⟨hf, hl⟩ := q.root.deliver_leaf (q.control.recordBatch batch) batch
  rw [deliver_eq] at hd
  split at hd
  · cases hd
  · rename_i hnone
    have ht := h.deliver ha (Prod.ext (hf.symm.trans hnone) rfl)
    have := (advance_tracks (q := q.received batch) rowLimit
      (show (q.received batch).root.leaf.Tracks _ _ _ from hl ▸ ht)).1
    rwa [hd] at this

end Query

/-- The request of a call, if it made one, and the batch that came of it, if there was one. -/
def Visit.exchange? (v : Visit) : Option (FetchRequest × Option Batch) :=
  v.sent.map fun (request, fate) => (request, fate.batch?)

/-- An exchange without its source, which the servers do not see. -/
def Exchange.seen (e : Exchange) : FetchRequest × Option Batch := (e.request, e.batch)

namespace Client

/-- The visits so far made the requests of a chain, and the scan of the query that is kept is where
the chain ends. -/
def Follows (shards : List Int) (past : List Visit) (left : Option Query) : Prop :=
  ∃ chain, Chained shards chain ∧ chain.reverse.map Exchange.seen = past.filterMap Visit.exchange? ∧
    ∀ q, left = some q → q.root.leaf.Tracks shards chain (announced chain).length

namespace Follows
variable {shards : List Int} {past : List Visit} {left left' : Option Query} {v : Visit} {q : Query}

/-- A visit without a request. -/
theorem idle (h : Follows shards past left) (hv : v.exchange? = none)
    (hl : ∀ chain r, left' = some r →
      (∀ q, left = some q → q.root.leaf.Tracks shards chain (announced chain).length) →
      r.root.leaf.Tracks shards chain (announced chain).length) :
    Follows shards (past ++ [v]) left' := by
  obtain ⟨chain, hc, hs, ht⟩ := h
  exact ⟨chain, hc, by simp [hs, hv], fun r hr => hl chain r hr ht⟩

/-- A visit to a query that comes to ask for something. -/
theorem asked {limit : Nat} {rowLimit : Option Nat} {r : Query} {request : FetchRequest}
    {b : Option Batch} (h : Follows shards past (some q))
    (ha : (q.begun limit).advance rowLimit = (.waiting request, r))
    (hv : v.exchange? = some (request, b))
    (hl : ∀ chain o, r.root.leaf.Tracks shards chain (announced chain).length →
      r.root.leaf.Asks o request → ∀ t, left = some t →
        t.root.leaf.Tracks shards (⟨o, request, b⟩ :: chain)
          (announced (⟨o, request, b⟩ :: chain)).length) :
    Follows shards (past ++ [v]) left := by
  obtain ⟨chain, hc, hs, ht⟩ := h
  have hadvance := Query.advance_tracks (q := q.begun limit) rowLimit (ht q rfl)
  rw [ha] at hadvance
  obtain ⟨htracks, hask⟩ := hadvance
  obtain ⟨o, ho⟩ := hask request rfl
  exact ⟨⟨o, request, b⟩ :: chain, hc.cons (htracks.due ho), by simp [hs, hv, Exchange.seen],
    hl chain o htracks ho⟩

theorem meets {limit : Nat} {fresh : Bool} {a : Attempt} {noted : List Event}
    (h : Follows shards past (some q)) (hm : q.Meets limit fresh a v noted left) :
    Follows shards (past ++ [v]) left := by
  cases hm with
  | @idle more r ha =>
    refine h.idle rfl fun chain s hs ht => ?_
    have hadvance := (Query.advance_tracks (q := q.begun limit) a.options.rowLimit (ht q rfl)).1
    rw [ha] at hadvance
    cases more with
    | false => cases hs
    | true =>
      cases hs
      exact hadvance
  | broken => exact h.idle rfl (by simp)
  | @served request r s t batch more ha hi hf hd =>
    refine h.asked ha (b := some batch) (by rw [hf]; rfl) fun chain o ht ho u hu => ?_
    obtain ⟨control, rfl⟩ := Query.issue_controls hi
    cases more with
    | false => cases hu
    | true =>
      cases hu
      exact Query.deliver_tracks (q := Query.quiet { r with control }) (r := t) ht ho hd
  | @spoiled request r s t batch e ha hi hf hd =>
    exact h.asked ha (b := some batch) (by rw [hf]; rfl) (by simp)
  | @struck request r s e ha hi hf =>
    have hv : Visit.exchange? ⟨a.options, some (request, a.fate), .error e⟩ =
        some (request, none) := congrArg (fun b => some (request, b)) (Fate.batch?_of_error hf)
    refine h.asked ha hv fun chain o ht ho u hu => ?_
    obtain ⟨control, rfl⟩ := Query.issue_controls hi
    split at hu
    · cases hu
    · cases hu
      have := ht.missed (r := request) (ht.known_of_asks ho)
      simp only [announced, announces, Option.map_none, Option.getD_none, ite_self, List.append_nil]
      exact this

/-- A query that is about to begin. -/
theorem new {c : Client} {errand : Errand} (hn : errand.plan.plan.ShardsDistinct) :
    Follows errand.plan.plan.shards [] (c.opened errand none).toOption := by
  refine ⟨[], .nil, rfl, fun q hq => ?_⟩
  obtain ⟨externals, -, hp⟩ := opened_new (ok_of_toOption hq)
  obtain ⟨-, root, hr, rfl⟩ := ofPlan_eq hp
  obtain ⟨reg, info, hsource, hscan⟩ := Operator.leaf_ofStep _ hr
  exact .ofInfo (hn info hsource) hscan

end Follows

/-- The requests of a query, whatever batches came of them and wherever its calls failed, can be
told apart by their sources so that those for each source form a chain. -/
theorem course_chained (c : Client) (errand : Errand) (attempts : List Attempt)
    (hn : errand.plan.plan.ShardsDistinct) :
    ∃ chain, Chained errand.plan.plan.shards chain ∧
      chain.reverse.map Exchange.seen =
        (c.course errand attempts none).filterMap Visit.exchange? := by
  obtain ⟨left, chain, hc, hs, -⟩ := course_keeps (I := Follows errand.plan.plan.shards)
    (fun h => h.idle rfl fun _ _ hl ht => ht _ hl) (fun h => h.meets) attempts (.new hn)
  exact ⟨chain, hc, hs⟩

end Client

namespace TwoShards

/-- What the calls of a scan come to. The first shard wants a part of it scanned on its own, and the
request for that part has to be made again, since the servers are busy at first. -/
def visits : List Visit :=
  site.client.course errand
    ([.batch { rows := [row 1 "first"], continuation := some [1], virtualScans := [scan] },
      .batch { rows := [] },
      .failed (.retryable "busy"),
      .batch { rows := [row 2 "scan"], continuation := some [2] },
      .batch { rows := [row 3 "first"] },
      .batch { rows := [] }].map fun reply => ⟨{}, .replied reply⟩)
    none

end TwoShards

open TwoShards in
/-- The descriptor of the part goes out until a batch has come, and never again. -/
theorem Client.course_chained_twoShards :
    errand.plan.plan.ShardsDistinct ∧
      (visits.filterMap Visit.exchange?).map
        (fun x => (x.1.target, x.1.continuation, x.1.virtualScan)) =
        [(.shard 1, none, none), (.shard 2, none, none), (.shard 1, none, some scan),
          (.shard 1, none, some scan), (.shard 1, some [1], none), (.shard 1, some [2], none)] ∧
      ∃ chain, Chained [2, 1] chain ∧
        chain.reverse.map Exchange.seen = visits.filterMap Visit.exchange? := by
  have hn : errand.plan.plan.ShardsDistinct := fun _ _ _ _ => by decide
  exact ⟨hn, by cbv, course_chained site.client errand _ hn⟩

end ShardQuery
