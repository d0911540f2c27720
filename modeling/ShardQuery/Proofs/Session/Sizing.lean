import ShardQuery.Proofs.Merge.Sizing
import ShardQuery.Proofs.Session.Capacity
import ShardQuery.Proofs.Session.Chains

/-!
How many rows the calls of a query ask partitions for. The memory limit is one of the call, the
average size is one of all batches so far, and the calls between which these came may have failed.
-/

namespace ShardQuery

namespace Query
variable {q r : Query} {rowLimit : Option Nat} {s : Scan} {e : Control} {request : FetchRequest}
  {failure : QueryError}

/-- The row of a step that has one. -/
def offered (q : Query) : Value :=
  (q.root.step q.control).control.reg (q.root.step q.control).state.reg

/-- A call that goes on from a query comes to a step in which the scan takes one too. -/
inductive Stirs (rowLimit : Option Nat) : Query → Scan → Control → Prop
  | now {q : Query} {s : Scan} {e : Control}
    (hl : rowLimit.any (· ≤ q.pending.size) = false) (h : q.root.Reaches q.control s e) :
    Stirs rowLimit q s e
  | more {q : Query} {s : Scan} {e : Control}
    (hl : rowLimit.any (· ≤ q.pending.size) = false)
    (hm : (q.root.step q.control).signal = .more) (h : Stirs rowLimit (q.stepped q.pending) s e) :
    Stirs rowLimit q s e
  | row {q : Query} {s : Scan} {e : Control}
    (hl : rowLimit.any (· ≤ q.pending.size) = false)
    (hr : (q.root.step q.control).signal = .row)
    (h : Stirs rowLimit (q.stepped (q.pending.push q.offered)) s e) :
    Stirs rowLimit q s e

/-- A call takes one step after the other. -/
theorem advance_step (hl : rowLimit.any (· ≤ q.pending.size) = false) : q.advance rowLimit =
    match (q.root.step q.control).signal with
    | .more => (q.stepped q.pending).advance rowLimit
    | .row => (q.stepped (q.pending.push q.offered)).advance rowLimit
    | .request request => (.waiting request, q.stepped q.pending)
    | .fail e => (.failed e, q.stepped q.pending)
    | .dry =>
      (.finished (q.root.step q.control).control.needsContinuation, q.stepped q.pending) := by
  rw [advance_eq, hl, Operator.pull_eq]
  cases hs : (q.root.step q.control).signal with
  | more =>
    have hl' : rowLimit.any (· ≤ (q.stepped q.pending).pending.size) = false := hl
    rw [advance_eq (q.stepped q.pending), hl']
    rfl
  | row | request | fail | dry => simp [hs, stepped, moved, offered]

namespace Stirs

theorem positive (h : Stirs rowLimit q s e) : rowLimit ≠ some 0 := by
  rintro rfl
  cases h <;> simp at *

theorem keeps {P : Scan → Prop} (hP : ∀ s c, P s → P (s.step c).state)
    (h : Stirs rowLimit q s e) (hq : P q.root.leaf) : P s := by
  induction h with
  | now _ h => exact h.leaf ▸ hq
  | more _ _ _ ih | row _ _ _ ih => exact ih (Operator.step_leaf hP _ _ hq)

theorem settings (h : Stirs rowLimit q s e) : e.settings = q.control.settings := by
  induction h with
  | now _ h => exact h.settings
  | more _ _ _ ih | row _ _ _ ih => exact ih.trans (Operator.step_settings ..)

theorem fresh (h : Stirs rowLimit q s e) (hq : q.control.frame.Fresh) : e.frame.Fresh := by
  induction h with
  | now _ h => exact h.fresh hq
  | more _ _ _ ih | row _ _ _ ih => exact ih (Operator.step_fresh _ hq)

/-- What the call comes to is up to the step in which the scan takes one. -/
theorem last (h : Stirs rowLimit q s e) :
    ∃ t : Query, q.advance rowLimit = t.advance rowLimit ∧
      rowLimit.any (· ≤ t.pending.size) = false ∧ t.root.Reaches t.control s e := by
  induction h with
  | now hl h => exact ⟨_, rfl, hl, h⟩
  | more hl hm _ ih =>
    rw [advance_step hl, hm]
    exact ih
  | row hl hr _ ih =>
    rw [advance_step hl, hr]
    exact ih

theorem waiting (h : Stirs rowLimit q s e) (hs : (s.step e).signal = .request request) :
    ∃ r, q.advance rowLimit = (.waiting request, r) ∧ r.root.leaf = (s.step e).state := by
  obtain ⟨t, ht, hl, hr⟩ := h.last
  obtain ⟨hleaf, hsignal⟩ := hr.step
  refine ⟨t.stepped t.pending, ?_, hleaf⟩
  rw [ht, advance_step hl, hsignal (by rw [hs]; rfl), hs]

theorem failed (h : Stirs rowLimit q s e) (hs : (s.step e).signal = .fail failure) :
    ∃ r, q.advance rowLimit = (.failed failure, r) ∧ r.root.leaf = (s.step e).state := by
  obtain ⟨t, ht, hl, hr⟩ := h.last
  obtain ⟨hleaf, hsignal⟩ := hr.step
  refine ⟨t.stepped t.pending, ?_, hleaf⟩
  rw [ht, advance_step hl, hsignal (by rw [hs]; rfl), hs]

end Stirs

/-- Nothing but its scan makes a call wait for a batch. -/
theorem stirs_of_waiting (h : q.advance rowLimit = (.waiting request, r)) :
    ∃ s e, Stirs rowLimit q s e ∧ (s.step e).signal = .request request := by
  induction hn : q.root.work using Nat.strongRecOn generalizing q with
  | ind n ih =>
    have hl : rowLimit.any (· ≤ q.pending.size) = false := by
      rw [advance_eq] at h
      split at h
      · cases h
      · rename_i hl
        exact Bool.eq_false_iff.2 hl
    have hw : (q.root.step q.control).signal.progresses = true →
        (q.root.step q.control).state.work < n := hn ▸ Operator.step_work_lt
    rw [advance_step hl] at h
    cases hs : (q.root.step q.control).signal with
    | more =>
      rw [hs] at h hw
      obtain ⟨s, e, hstirs, hr⟩ := ih _ (hw rfl) h rfl
      exact ⟨s, e, .more hl hs hstirs, hr⟩
    | row =>
      rw [hs] at h hw
      obtain ⟨s, e, hstirs, hr⟩ := ih _ (hw rfl) h rfl
      exact ⟨s, e, .row hl hs hstirs, hr⟩
    | request =>
      rw [hs] at h
      cases h
      obtain ⟨s, e, hreaches, hr⟩ := q.root.reaches_of_request q.control hs
      exact ⟨s, e, .now hl hreaches, hr⟩
    | fail | dry =>
      rw [hs] at h
      cases h

/-- The scan of a query has counted the rows of some batches. -/
structure Counts (config : Config) (batches : List Batch) (q : Query) : Prop where
  leaf : q.root.leaf.Counts batches
  config : q.control.config = config

namespace Counts
variable {config : Config} {batches : List Batch} {batch : Batch} {more : Bool}

theorem advance (h : q.Counts config batches) (rowLimit : Option Nat) :
    (q.advance rowLimit).2.Counts config batches := by
  obtain ⟨hleaf, -⟩ := advance_leaf (P := Scan.Counts batches) (fun _ c hs => hs.step c) rowLimit
    h.leaf
  have hi := q.advance_identity rowLimit
  exact ⟨hleaf, (congrArg (·.2.2.2.2.1) hi).trans h.config⟩

theorem issue (h : q.Counts config batches) (hi : q.issue request = .ok r) :
    r.quiet.Counts config batches := by
  rw [issue_ok hi]
  exact ⟨h.leaf, h.config⟩

theorem deliver (h : q.Counts config batches) (ha : (q.root.leaf.step e).signal = .request request)
    (hd : q.deliver rowLimit batch = (.finished more, r)) :
    r.Counts config (batches ++ [batch]) := by
  obtain ⟨hf, hl⟩ := q.root.deliver_leaf (q.control.recordBatch batch) batch
  have hi := q.deliver_identity rowLimit batch
  rw [hd] at hi
  refine ⟨?_, (congrArg (·.2.2.2.2.1) hi).trans h.config⟩
  rw [deliver_eq] at hd
  split at hd
  · cases hd
  · rename_i hnone
    have ht := h.leaf.deliver ha (Prod.ext (hf.symm.trans hnone) rfl)
    obtain ⟨hleaf, -⟩ := advance_leaf (P := Scan.Counts (batches ++ [batch]))
      (fun _ c hs => hs.step c) rowLimit (q := q.received batch) (hl ▸ ht)
    rwa [hd] at hleaf

end Counts

end Query

namespace Visit

/-- All rows that came so far. -/
def staged (past : List Visit) : List Value := (past.filterMap batch?).flatMap (·.rows)

end Visit

namespace Client
variable {c d : Client} {errand : Errand} {token : Option Token} {past : List Visit} {q r : Query}
  {a : Attempt} {s : Scan} {e : Control} {top : Feed} {info : ReceiveInfo}

/-- The memory limit of a call. -/
def memoryLimit (c : Client) (options : CallOptions) : Nat :=
  options.maxMemory.getD c.config.maxMemory

/-! What is seen of a call, by what its query comes to before the fetch. -/

theorem attempt_of_failed {failure : QueryError} (ho : c.opened errand token = .ok q)
    (hl : a.options.rowLimit ≠ some 0)
    (ha : (q.begun (c.memoryLimit a.options)).advance a.options.rowLimit = (.failed failure, r)) :
    (c.attempt errand token a).2 = ⟨a.options, none, .error failure⟩ := by
  unfold attempt
  rw [execute_eq, if_neg hl, ho]
  simp only [run_eq, entered_config]
  rw [← memoryLimit, ha]
  simp only [follow, complete, settleError_result]

theorem attempt_of_waiting {request : FetchRequest} (ho : c.opened errand token = .ok q)
    (hl : a.options.rowLimit ≠ some 0)
    (ha : (q.begun (c.memoryLimit a.options)).advance a.options.rowLimit =
      (.waiting request, r)) :
    (c.attempt errand token a).2.sent = some (request, a.fate) := by
  obtain ⟨hfresh, -⟩ := Query.advance_again rfl ha
  unfold attempt
  rw [execute_eq, if_neg hl, ho]
  simp only [run_eq, entered_config]
  rw [← memoryLimit, ha]
  simp only [follow, Query.issue_eq hfresh, complete]

/-- A request that is seen is one that a query waits for. -/
theorem waiting_of_sent {request : FetchRequest} {fate : Fate}
    (h : (c.attempt errand token a).2.sent = some (request, fate)) :
    fate = a.fate ∧ ∃ q r, c.opened errand token = .ok q ∧
      (q.begun (c.memoryLimit a.options)).advance a.options.rowLimit = (.waiting request, r) := by
  have ht := c.attempt_turns errand token a
  generalize c.attempt errand token a = x at h ht
  cases ht with
  | refused hc hs => cases h
  | met hc ho hm hl hn =>
    cases hm with
    | idle ha | broken ha => cases h
    | served ha hi hf hd | spoiled ha hi hf hd | struck ha hi hf =>
      cases h
      exact ⟨rfl, _, _, ho, ha⟩

/-- The query that is kept has counted all rows that came. -/
def Counted (config : Config) (past : List Visit) (left : Option Query) : Prop :=
  ∀ q, left = some q → q.Counts config (past.filterMap Visit.batch?)

namespace Counted
variable {config : Config} {left : Option Query} {v : Visit}

/-- A visit without a batch. -/
theorem without (hv : v.batch? = none)
    (hl : ∀ r, left = some r → r.Counts config (past.filterMap Visit.batch?)) :
    Counted config (past ++ [v]) left := by
  intro r hr
  rw [Visit.batches_concat, hv]
  simpa using hl r hr

theorem meets {limit : Nat} {fresh : Bool} {noted : List Event}
    (h : Counted config past (some q)) (hm : q.Meets limit fresh a v noted left) :
    Counted config (past ++ [v]) left := by
  have hq : (q.begun limit).Counts config (past.filterMap Visit.batch?) :=
    ⟨(h q rfl).leaf, (h q rfl).config⟩
  have hadvance := hq.advance a.options.rowLimit
  cases hm with
  | @idle more r ha =>
    rw [ha] at hadvance
    refine .without rfl fun u hu => ?_
    cases more with
    | false => cases hu
    | true =>
      cases hu
      exact ⟨hadvance.leaf, hadvance.config⟩
  | broken | spoiled => exact nofun
  | @served request r s t batch more ha hi hf hd =>
    obtain ⟨-, hasks⟩ := Query.advance_leaf (P := fun _ => True) (fun _ _ _ => trivial)
      a.options.rowLimit (q := q.begun limit) trivial
    rw [ha] at hadvance hasks
    obtain ⟨e, he⟩ := hasks request rfl
    have hissue := hadvance.issue hi
    obtain ⟨control, rfl⟩ := Query.issue_controls hi
    intro u hu
    cases more with
    | false => cases hu
    | true =>
      cases hu
      have ht := hissue.deliver he hd
      have hv : Visit.batch? ⟨a.options, some (request, a.fate), .ok (reportOf true t)⟩ =
          some batch := by
        simp [Visit.batch?, hf, Fate.batch?]
      rw [Visit.batches_concat, hv]
      exact ⟨ht.leaf, ht.config⟩
  | @struck request r s failure ha hi hf =>
    rw [ha] at hadvance
    refine .without (Fate.batch?_of_error hf) fun u hu => ?_
    split at hu
    · cases hu
    · cases hu
      exact hadvance.issue hi

/-- A query of sorted partitions that is about to begin. -/
theorem new (hi : errand.plan.plan.root.source? = some info)
    (hp : info.distribution = .allPartitions) (hs : info.specs ≠ []) :
    Counted c.config [] (c.opened errand none).toOption := by
  intro q hq
  obtain ⟨externals, -, ho⟩ := opened_new (ok_of_toOption hq)
  obtain ⟨-, root, hr, rfl⟩ := ofPlan_eq ho
  obtain ⟨reg, info', hsource, hscan⟩ := Operator.leaf_ofStep _ hr
  obtain rfl : info = info' := Option.some.inj (hi.symm.trans hsource)
  exact ⟨.ofInfo hp hs hscan, rfl⟩

end Counted

section
variable (hi : errand.plan.plan.root.source? = some info) (hp : info.distribution = .allPartitions)
  (hs : info.specs ≠ []) (hu : c.Underway errand past d token)
include hi hp hs hu

/-- What decides in a call how many rows a merge asks for. -/
theorem Underway.mergeLimit (ho : d.opened errand token = .ok q) {options : CallOptions}
    (hst : (q.begun (c.memoryLimit options)).Stirs options.rowLimit s e) :
    s.phase ≠ .plain ∧ e.fetchDone = false ∧ s.mergeLimit e =
      if room (c.memoryLimit options) s.duplicateMemory (Visit.staged past) = 0 then
        .error (.memoryExceeded
          (max e.ledger.used (s.duplicateMemory + averageSize (Visit.staged past)))
          (c.memoryLimit options))
      else .ok (min (room (c.memoryLimit options) s.duplicateMemory (Visit.staged past))
        c.config.partitionFetchCap) := by
  have hq : q.Counts c.config (past.filterMap Visit.batch?) := by
    refine hu.keeps (I := Counted c.config) (fun h => .without rfl h) (fun h => h.meets)
      (.new hi hp hs) q ?_
    rw [ho]
    rfl
  have hcounts := hst.keeps (P := Scan.Counts (past.filterMap Visit.batch?))
    (fun _ e hs => hs.step e) hq.leaf
  have hsettings := hst.settings
  have hconfig : e.config = c.config := (congrArg (·.2.1) hsettings).trans hq.config
  have hlimit : e.ledger.limit = c.memoryLimit options := congrArg (·.2.2) hsettings
  have hfresh := hst.fresh ⟨rfl, rfl⟩
  refine ⟨hcounts.phase, hfresh.1, ?_⟩
  rw [hcounts.mergeLimit, hconfig, hlimit]
  rfl

/-- A merge of sorted partitions asks for as many rows as there is room for, of the average size of
all that came in the query so far, but not for more than the cap. If there is no room for even one,
the call fails without a request, and the scan stays as it was. -/
theorem Underway.sized (hcap : 1 ≤ c.config.partitionFetchCap) (a : Attempt) :
    (∀ q s e top, d.opened errand token = .ok q →
      (q.begun (c.memoryLimit a.options)).Stirs a.options.rowLimit s e → s.Wants top →
        if room (c.memoryLimit a.options) s.duplicateMemory (Visit.staged past) = 0 then
          (d.attempt errand token a).2 = ⟨a.options, none, .error (.memoryExceeded
            (max e.ledger.used (s.duplicateMemory + averageSize (Visit.staged past)))
            (c.memoryLimit a.options))⟩ ∧
          ((q.begun (c.memoryLimit a.options)).advance a.options.rowLimit).2.root.leaf = s
        else (d.attempt errand token a).2.sent = some (top.request
          (min (room (c.memoryLimit a.options) s.duplicateMemory (Visit.staged past))
            c.config.partitionFetchCap), a.fate)) ∧
    ∀ request fate, (d.attempt errand token a).2.sent = some (request, fate) →
      request.target ≠ .sortPhase1 → ∃ q s e top, d.opened errand token = .ok q ∧
        (q.begun (c.memoryLimit a.options)).Stirs a.options.rowLimit s e ∧ s.Wants top ∧
        request = top.request
          (min (room (c.memoryLimit a.options) s.duplicateMemory (Visit.staged past))
            c.config.partitionFetchCap) ∧
        1 ≤ request.limit ∧
        s.duplicateMemory + request.limit * averageSize (Visit.staged past) ≤
          c.memoryLimit a.options := by
  have hmemory : d.memoryLimit a.options = c.memoryLimit a.options := by
    rw [memoryLimit, hu.config]
    rfl
  refine ⟨fun q s e top ho hst hw => ?_, fun request fate hsent ht => ?_⟩
  · obtain ⟨-, hfetch, hlimit⟩ := hu.mergeLimit hi hp hs ho hst
    have hstep := hw.step hfetch
    rw [hlimit] at hstep
    split
    · rename_i hzero
      rw [if_pos hzero] at hstep
      obtain ⟨r, ha, hleaf⟩ := hst.failed (congrArg Step.signal hstep)
      refine ⟨attempt_of_failed ho hst.positive (by rw [hmemory]; exact ha), ?_⟩
      rw [ha, hleaf, hstep]
    · rename_i hroom
      rw [if_neg hroom] at hstep
      obtain ⟨r, ha, -⟩ := hst.waiting (congrArg Step.signal hstep)
      exact attempt_of_waiting ho hst.positive (by rw [hmemory]; exact ha)
  · obtain ⟨-, q, r, ho, ha⟩ := waiting_of_sent hsent
    rw [hmemory] at ha
    obtain ⟨s, e, hst, hasks⟩ := Query.stirs_of_waiting ha
    obtain ⟨hphase, hfetch, hlimit⟩ := hu.mergeLimit hi hp hs ho hst
    obtain ⟨-, hdiscovers⟩ | ⟨top, hw, -⟩ := Scan.discovers_or_wants hphase hasks
    · exact (ht hdiscovers).elim
    · rw [hw.step hfetch, hlimit] at hasks
      split at hasks
      · rename_i limit hlimit
        cases hasks
        split at hlimit
        · cases hlimit
        · rename_i hroom
          cases hlimit
          have hpos := Nat.lt_min.2 ⟨Nat.pos_of_ne_zero hroom, hcap⟩
          exact ⟨q, s, e, top, ho, hst, hw, rfl, hpos, room_fits (Nat.min_le_left ..) hpos⟩
      · cases hasks

end

end Client

namespace KeyedPartition

def row (k : Int32) : Value := .map [("k", .integer k)]

def errand : Errand :=
  { newId := default
    plan := ⟨0,
      { root := .receive 0 ⟨.allPartitions, [{ field := "k" }], ["k"]⟩
        registers := 1 }⟩ }

def client : Client := { config := {} }

/-- The first call finds a partition, hands out the row that came with it and has to stop. -/
def paused : Client × Visit :=
  client.attempt errand none
    ⟨{}, .replied (.batch { rows := [row 1], phase1 := some ⟨false, [2], [1], [some [2]]⟩ })⟩

def token : Token := ⟨errand.newId, 1⟩

/-- The next call, which the servers do not answer in time. -/
def resumed (memory : Nat) : Visit :=
  (paused.1.attempt errand (some token) ⟨{ maxMemory := some memory }, .timedOut 5⟩).2

theorem sent_resumed : (resumed 240).sent =
    some ({ target := .partition 2, limit := 3, continuation := some [2] }, .timedOut 5) := by
  cbv

/-- There is no room for one more row. -/
example : resumed 100 = ⟨{ maxMemory := some 100 }, none, .error (.memoryExceeded 105 100)⟩ := by
  cbv

end KeyedPartition

open KeyedPartition in
/-- Rows have 65 bytes, and 40 are held for the key of the first one. -/
theorem Client.Underway.sized_keyedPartition :
    client.Underway errand [paused.2] paused.1 (some token) ∧
      ∃ s : Scan, room 240 s.duplicateMemory (Visit.staged [paused.2]) = 3 ∧
        averageSize (Visit.staged [paused.2]) = 65 ∧ s.duplicateMemory + 3 * 65 ≤ 240 := by
  have hu : client.Underway errand [paused.2] paused.1 (some token) := .next .start _ (by cbv)
  have hsize : averageSize (Visit.staged [paused.2]) = 65 := by cbv
  obtain ⟨-, hsent⟩ := hu.sized rfl rfl (by decide) (by decide)
    ⟨{ maxMemory := some 240 }, .timedOut 5⟩
  obtain ⟨q, s, e, top, -, -, -, hr, -, hfits⟩ := hsent _ _ sent_resumed (by decide)
  have hlimit : 3 = min (room 240 s.duplicateMemory (Visit.staged [paused.2])) 2048 :=
    congrArg (·.limit) hr
  exact ⟨hu, s, by omega, hsize, hsize ▸ hfits⟩

end ShardQuery
