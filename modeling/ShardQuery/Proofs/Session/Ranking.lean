import ShardQuery.Proofs.Merge.Ranking
import ShardQuery.Proofs.Session.Chains
import ShardQuery.Proofs.Session.History

/-!
What operators do in the calls of a query does no more to a merge of shards than what can happen to
any scan. So its queue is ordered strictly at all moments of all histories.
-/

namespace ShardQuery

namespace Scan
variable {reg : Nat} {info : ReceiveInfo} {shards given : List Int} {s : Scan}

theorem Reachable.step (h : Reachable reg info shards s given) (c : Control) :
    Reachable reg info shards (s.step c).state given := by
  have hmoved := h.move .step (show (s.step c).control.seededIds = c.seededIds ++ [] by
    rw [step_seededIds, List.append_nil])
  rwa [List.append_nil] at hmoved

theorem Reachable.deliver (hd : info.distribution = .allShards) (hs : info.specs ≠ [])
    (h : Reachable reg info shards s given) (c : Control) (batch : Batch) :
    ∃ given, Reachable reg info shards (s.deliver c batch).2.1 given := by
  have hm : s.Moves c (s.deliver c batch).2.1 (s.deliver c batch).2.2 := .deliver batch
  obtain ⟨new, hnew, -⟩ := (h.numbered hd hs).move hm
  exact ⟨given ++ new, h.move hm hnew⟩

end Scan

namespace Query
variable {q : Query}

/-- A query whose merge of shards, if it has one, is one that can be come to. -/
def Merges (q : Query) : Prop :=
  ∀ info, q.plan.plan.root.source? = some info → info.distribution = .allShards →
    info.specs ≠ [] → ∃ reg given, Scan.Reachable reg info q.plan.plan.shards q.root.leaf given

theorem lasting_merges : Lasting Merges where
  new {id plan bindings externals config q} _ h := by
    obtain ⟨-, root, hr, rfl⟩ := Client.ofPlan_eq h
    obtain ⟨reg, found, hsource, hscan⟩ := Operator.leaf_ofStep _ hr
    intro info hi _ _
    obtain rfl := Option.some.inj (hsource.symm.trans hi)
    exact ⟨reg, [], .start hscan⟩
  stepped {q} h pending := by
    intro info hi hd hs
    obtain ⟨reg, given, hreach⟩ := h info hi hd hs
    exact ⟨reg, given, Operator.step_leaf
      (P := fun s => Scan.Reachable reg info q.plan.plan.shards s given)
      (fun _ c hscan => hscan.step c) q.root q.control hreach⟩
  received {q} h batch := by
    intro info hi hd hs
    obtain ⟨reg, given, hreach⟩ := h info hi hd hs
    obtain ⟨given, htaken⟩ := hreach.deliver hd hs (q.control.recordBatch batch) batch
    refine ⟨reg, given, ?_⟩
    rw [received, (q.root.deliver_leaf _ batch).2]
    exact htaken
  untouched {q r} h hr := by
    unfold Merges
    rw [hr.plan, hr.root]
    exact h

end Query

namespace Client
variable {config : Config} {c : Client} {calls : List Call} {q : Query} {info : ReceiveInfo}

/-- Whatever clients do and servers answer, the queue of a merge of shards is ordered strictly, and
the feed on top is the one that comes before all others. -/
theorem Moment.ranked (h : History config c calls) (hm : Moment c calls q)
    (hi : q.plan.plan.root.source? = some info) (hd : info.distribution = .allShards)
    (hs : info.specs ≠ []) (hn : q.plan.plan.shards.Nodup) :
    ∃ given, q.root.leaf.Ranked info q.plan.plan.shards given := by
  obtain ⟨hc, hw⟩ := h.all Query.lasting_merges
  obtain ⟨reg, given, hreach⟩ := hm.lasting Query.lasting_merges hc hw info hi hd hs
  exact ⟨given, (hreach.numbered hd hs).ranked hn⟩

end Client
end ShardQuery
