import Mathlib
import ShardQuery.Proofs.Merge.Discovery

/-!
The merge of sorted partitions returns what one stable sort of all partitions would, and nothing
before all partitions are found.
-/

namespace ShardQuery

namespace Scan
variable {m : Merge} {reg : Nat} {config : Config} {partitions : List (Int × List Value)}

/-- A scan that finds its partitions, or merges them after all are found. -/
def MergesFound (m : Merge) (reg batchLimit : Nat) (partitions : List (Int × List Value)) :
    ScanInvariant :=
  fun s log rows =>
    (∃ shares hidden, s.Discovers m reg batchLimit partitions log rows shares hidden) ∨
      s.Merges m reg .allPartitions log rows ∧ Discovered m.servers log

theorem MergesFound.bound {batchLimit : Nat} {s : Scan} {log : List FetchRequest}
    {rows : List Value} (h : s.MergesFound m reg batchLimit partitions log rows) :
    log.length ≤ m.answers ∧ rows.length ≤ m.goal.length := by
  rcases h with ⟨shares, hidden, h⟩ | ⟨h, -⟩
  · obtain ⟨answers, ha, -⟩ := h.serving
    rw [h.rows]
    exact ⟨by omega, Nat.zero_le _⟩
  · exact h.bound

theorem MergesFound.upholds {room : Nat} (hreg : reg < room)
    (hlimits : m.limits = fun limit => 1 ≤ limit ∧ limit ≤ config.partitionFetchCap)
    (hcap : 1 ≤ config.partitionFetchCap) (hids : partitions.Pairwise (·.1 < ·.1))
    (hsorted : ∀ p ∈ partitions, SortedRows m.specs p.2)
    (hgoal : m.goal = sortRows m.specs (partitions.flatMap (·.2))) :
    Upholds m.servers room config m.goal (MergesFound m reg config.batchLimit partitions) := by
  intro s c log rows h hc hroom hconfig
  rcases h with ⟨shares, hidden, h⟩ | ⟨h, hfound⟩
  · have hstep : s.step c =
        ⟨.request (discoveryRequest config.batchLimit s.phase1Continuation), s, c⟩ := by
      unfold Scan.step
      rw [h.phase]
      simp only [ask, hc, hconfig]
      rfl
    rw [hstep]
    refine .request fun hb hd => ?_
    rcases h.deliver hids hsorted hgoal hb hd with hnext | ⟨hlines, hfound⟩
    · exact .inl hnext
    · exact .inr ⟨.inl hlines, hfound⟩
  · refine Keeps.mono (fun hl hm => .inr ⟨hm, hfound.mono hl⟩) (h.step hc (hroom ▸ hreg) ?_)
    intro hd limit hlimit
    rw [hlimits]
    simp only [mergeLimit, hd, bne_self_eq_false, Bool.false_eq_true, ↓reduceIte, hconfig] at hlimit
    generalize (c.ledger.limit - s.duplicateMemory) / s.bytesPerRow = affordable at hlimit
    split at hlimit
    · cases hlimit
    · cases hlimit
      omega

theorem discovers_ofInfo {info : ReceiveInfo} {shards : List Int} {s : Scan} {batchLimit : Nat}
    {log : List FetchRequest} (h : Scan.ofInfo reg info shards = .ok s)
    (hdistribution : info.distribution = .allPartitions) (hspecs : info.specs ≠ [])
    (hkey : info.primaryKey = []) (hm : m.specs = info.specs)
    (hserving : ∃ answers, answers + log.length = m.answers ∧
      Discovering m.servers batchLimit m.limits answers log none partitions []) :
    s.Discovers m reg batchLimit partitions log [] [] partitions := by
  obtain ⟨spec, rest, hcons⟩ := List.exists_cons_of_ne_nil hspecs
  simp only [ofInfo, hdistribution, hcons, hkey] at h
  cases h
  exact ⟨⟨rfl, rfl, hcons.symm.trans hm.symm, rfl⟩, rfl, rfl, trivial, .refl _, nofun, .refl _,
    hserving⟩

end Scan

/-- However the partitions are reported and their pages cut, whatever the batch limit, the cap and
the memory budget, and whatever the caller asks of single calls: a drain of sorted partitions that
has enough calls and no failure ends, and its rows are those of all partitions in one stable sort,
where the partition with the lower id goes first among equals. Calls that return rows have been told
that all partitions are found. -/
theorem Site.drain_mergesPartitions (servers : Servers) (errand : Errand) (w : Site) {reg : Nat}
    {info : ReceiveInfo} (partitions : List (Int × List Value)) (answers : Nat)
    (options : List CallOptions) (hroot : errand.plan.plan.root = .receive reg info)
    (hdistribution : info.distribution = .allPartitions) (hspecs : info.specs ≠ [])
    (hkey : info.primaryKey = []) (hcap : 1 ≤ w.client.config.partitionFetchCap)
    (hids : partitions.Pairwise (·.1 < ·.1))
    (hsorted : ∀ p ∈ partitions, SortedRows info.specs p.2)
    (hserving : Discovering servers w.client.config.batchLimit
      (fun limit => 1 ≤ limit ∧ limit ≤ w.client.config.partitionFetchCap) answers w.log none
      partitions [])
    (hcalls : answers + (partitions.flatMap (·.2)).length < options.length)
    (hok : ∀ e, (w.drain servers errand options none).standing ≠ .failed e) :
    (w.drain servers errand options none).standing = .complete ∧
      (w.drain servers errand options none).rows =
        sortRows info.specs (partitions.flatMap (·.2)) ∧
      ∀ n, (w.drain servers errand (options.take n) none).rows ≠ [] →
        Discovered servers (w.drain servers errand (options.take n) none).site.log := by
  let m : Merge :=
    { servers
      limits := fun limit => 1 ≤ limit ∧ limit ≤ w.client.config.partitionFetchCap
      specs := info.specs
      answers := answers + w.log.length
      goal := sortRows info.specs (partitions.flatMap (·.2)) }
  have hlength : m.goal.length = (partitions.flatMap (·.2)).length := List.length_mergeSort _
  let I := Scan.MergesFound m reg w.client.config.batchLimit partitions
  have hI (hreg : reg < errand.plan.plan.registers) :
      Scan.Upholds servers errand.plan.plan.registers w.client.config m.goal I :=
    Scan.MergesFound.upholds (m := m) hreg rfl hcap hids hsorted rfl
  have hstart (s : Scan) (hs : Scan.ofInfo reg info errand.plan.plan.shards = .ok s) :
      I s w.log [] :=
    .inl ⟨_, _, Scan.discovers_ofInfo hs hdistribution hspecs hkey rfl ⟨answers, rfl, hserving⟩⟩
  obtain ⟨hcomplete, hrows⟩ := drain_completes I answers options hroot hI hstart
    (fun s log rows hs => hs.bound) (hlength ▸ hcalls) hok
  refine ⟨hcomplete, hrows, fun n hn => ?_⟩
  cases ho : w.client.opened errand none with
  | error e =>
    cases ht : options.take n with
    | nil =>
      rw [ht] at hn
      exact (hn rfl).elim
    | cons first rest =>
      obtain ⟨w', e', he⟩ := drain_unopened servers first rest ho
      rw [ht, he] at hn
      exact (hn rfl).elim
  | ok q =>
    obtain ⟨⟨s, log, hlog, hs, -⟩, -⟩ := drain_new I hroot hI hstart ho (options.take n)
    rcases hs with ⟨shares, hidden, hs⟩ | ⟨-, hfound⟩
    · exact (hn hs.rows).elim
    · exact hfound.mono hlog

namespace ThreePartitions

def row (k : Int32) (origin : String) : Value := .map [("k", .integer k), ("origin", .text origin)]

def partitions : List (Int × List Value) :=
  [(2, [row 1 "two", row 2 "two"]), (5, [row 1 "five", row 3 "five"]), (7, [])]

/-- Partition 5 is reported first, without rows but with a key; 7 has neither. -/
def servers : Servers := fun _ request =>
  match request.target, request.continuation with
  | .sortPhase1, none =>
    .ok { rows := [], continuation := some [9], phase1 := some ⟨true, [5], [0], [some [5]]⟩ }
  | .sortPhase1, some _ =>
    .ok { rows := [row 1 "two"], phase1 := some ⟨false, [7, 2], [0, 1], [none, some [2]]⟩ }
  | .partition 5, some [5] => .ok { rows := [], continuation := some [6] }
  | .partition 5, _ => .ok { rows := [row 1 "five", row 3 "five"] }
  | _, _ => .ok { rows := [row 2 "two"] }

def errand : Errand :=
  { newId := default
    plan := ⟨0,
      { root := .receive 0 ⟨.allPartitions, [{ field := "k" }], []⟩
        registers := 1 }⟩ }

def site : Site := ⟨{ config := {} }, []⟩

def calls : List CallOptions := List.replicate 10 { rowLimit := some 1 }

def firstShares : List Share := [⟨5, [], some [5], [row 1 "five", row 3 "five"]⟩]

def lastShares : List Share := [⟨7, [], none, []⟩, ⟨2, [row 1 "two"], some [2], [row 2 "two"]⟩]

/-- The partitions wherever the servers may be with their pages. -/
def known : List Supply :=
  [{ target := .partition 5, continuation := some [5], rows := [row 1 "five", row 3 "five"] },
    { target := .partition 5, continuation := some [6], rows := [row 1 "five", row 3 "five"] },
    { target := .partition 2, continuation := some [2], rows := [row 2 "two"] }]

theorem serving (limits : Nat → Prop) (log : List FetchRequest) :
    Serving servers limits 3 log ((firstShares ++ lastShares).flatMap (·.supplies)) := by
  refine Serving.of_weight (· ∈ known) (fun s => if s.continuation = some [5] then 2 else 1)
    (fun s limit log batch hs _ hb => ?_) (fun s _ => by split <;> decide) _ ?_ ?_
  · simp only [known, List.mem_cons, List.not_mem_nil, or_false] at hs
    rcases hs with rfl | rfl | rfl <;> cases hb
    · exact ⟨⟨⟨_, rfl⟩, nofun, rfl⟩, by simp [Supply.rest, known], by decide⟩
    · exact ⟨⟨⟨_, rfl⟩, fun _ => rfl, rfl⟩, by simp [Supply.rest], by decide⟩
    · exact ⟨⟨⟨_, rfl⟩, fun _ => rfl, rfl⟩, by simp [Supply.rest], by decide⟩
  · simp [known, firstShares, lastShares, Share.supplies]
  · decide

theorem discovering (batchLimit : Nat) (limits : Nat → Prop) (log : List FetchRequest) :
    Discovering servers batchLimit limits 5 log none partitions [] := by
  intro batch info hb hi
  cases hb
  cases hi
  refine ⟨firstShares, _, ⟨rfl, rfl, rfl, rfl, ?_⟩, List.Perm.swap .., fun _ => ?_, nofun⟩
  · simp [firstShares, Share.Whole]
  · intro batch info hb hi
    cases hb
    cases hi
    refine ⟨lastShares, [], ⟨rfl, rfl, rfl, rfl, ?_⟩, List.Perm.swap .., nofun, fun _ => ⟨rfl, ?_⟩⟩
    · simp [lastShares, Share.Whole]
    · exact serving limits _

end ThreePartitions

open ThreePartitions in
/-- Equal rows of two partitions, of which the one with the higher id is found first. -/
theorem Site.drain_threePartitions :
    (site.drain servers errand calls none).standing = .complete ∧
      (site.drain servers errand calls none).rows =
        [row 1 "two", row 1 "five", row 2 "two", row 3 "five"] := by
  have hcomplete : (site.drain servers errand calls none).standing = .complete := by
    cbv
  have hsorted : ∀ p ∈ partitions, SortedRows [{ field := "k" }] p.2 := by
    simp only [partitions, List.forall_mem_cons, SortedRows]
    decide
  have h := drain_mergesPartitions servers errand site partitions 5 calls rfl rfl (by decide) rfl
    (by decide) (by decide) hsorted (discovering _ _ _) (by decide) (by rw [hcomplete]; simp)
  refine ⟨h.1, h.2.1.trans ?_⟩
  cbv

end ShardQuery
