import ShardQuery.Proofs.Operator.Faults
import ShardQuery.Proofs.Session.Flow

/-!
Queries that are one scan. What the scan keeps to from step to step its caller sees from call to
call, and a call that does not end the query either gets a batch or returns a row.
-/

namespace ShardQuery

/-- What is so of a scan, the requests answered and the rows handed on, the latest request first. -/
abbrev ScanInvariant := Scan → List FetchRequest → List Value → Prop

namespace Scan
variable {servers : Servers} {I : ScanInvariant} {goal rows : List Value} {s : Scan} {c : Control}
  {log : List FetchRequest} {room : Nat} {config : Config}

/-- How a step keeps to an invariant. A scan that is dry has handed on all rows there are. -/
inductive Keeps (servers : Servers) (I : ScanInvariant) (goal : List Value) (s : Scan) (c : Control)
    (log : List FetchRequest) (rows : List Value) : Step Scan → Prop where
  | more {t : Scan} (h : I t log rows) : Keeps servers I goal s c log rows ⟨.more, t, c⟩
  | row {t : Scan} {d : Control} (hd : d.registers.length = c.registers.length)
    (h : I t log (rows ++ [d.reg t.reg])) : Keeps servers I goal s c log rows ⟨.row, t, d⟩
  | dry {t : Scan} (h : I t log rows) (hg : rows = goal) :
    Keeps servers I goal s c log rows ⟨.dry, t, c⟩
  | request {request : FetchRequest}
    (h : ∀ {batch t} {d e : Control}, servers log request = .ok batch →
      s.deliver d batch = (none, t, e) → I t (request :: log) rows) :
    Keeps servers I goal s c log rows ⟨.request request, s, c⟩
  | fail {e : QueryError} : Keeps servers I goal s c log rows ⟨.fail e, s, c⟩

/-- Every step that can still fetch keeps to the invariant. -/
def Upholds (servers : Servers) (room : Nat) (config : Config) (goal : List Value)
    (I : ScanInvariant) : Prop :=
  ∀ (s : Scan) (c : Control) (log : List FetchRequest) (rows : List Value), I s log rows →
    c.fetchDone = false → c.registers.length = room → c.config = config →
    Keeps servers I goal s c log rows (s.step c)

theorem Keeps.registers {t : Step Scan} (h : Keeps servers I goal s c log rows t) :
    t.control.registers.length = c.registers.length := by
  cases h with
  | row hd => exact hd
  | more | dry | request | fail => rfl

/-- What follows from an invariant for the requests answered so far and those to come. -/
theorem Keeps.mono {J : ScanInvariant} {t : Step Scan}
    (hIJ : ∀ {u log' rows'}, log <:+ log' → I u log' rows' → J u log' rows')
    (h : Keeps servers I goal s c log rows t) : Keeps servers J goal s c log rows t := by
  cases h with
  | more h => exact .more (hIJ (List.suffix_refl _) h)
  | row hd h => exact .row hd (hIJ (List.suffix_refl _) h)
  | dry h hg => exact .dry (hIJ (List.suffix_refl _) h) hg
  | request h => exact .request fun hb hd => hIJ (List.suffix_cons ..) (h hb hd)
  | fail => exact .fail

theorem addVirtualScans_registers (s : Scan) (c : Control) (scans : List VirtualScan) :
    (s.addVirtualScans c scans).2.2.registers = c.registers := by
  induction scans generalizing s c with
  | nil => rfl
  | cons scan rest ih =>
    unfold addVirtualScans
    split
    · rfl
    · exact ih ..

theorem deliver_registers (s : Scan) (c : Control) (batch : Batch) :
    (s.deliver c batch).2.2.registers = c.registers := by
  have h := c.charge_registers (sizeOfRows batch.rows)
  unfold deliver
  split
  · unfold stagePlain
    split <;> rename_i he <;> rwa [he] at h
  · unfold stagePhase1
    split
    · rfl
    · split <;> rename_i he <;> rw [he] at h
      · exact h
      · simp only
        split <;> exact h
  · unfold stageMerge
    split
    · rfl
    · simp only
      split <;> rename_i he <;> rw [he] at h
      · exact h
      · exact (addVirtualScans_registers ..).trans h
  · rfl

end Scan

namespace Flow
variable {servers : Servers} {I : ScanInvariant} {goal : List Value} {room : Nat} {config : Config}
  {f g : Flow}

/-- A flow of one scan that keeps to an invariant. -/
structure Keeps (I : ScanInvariant) (room : Nat) (config : Config) (f : Flow) : Prop where
  scan : ∃ s, f.root = .scan s ∧ I s f.log f.rows
  bare : f.control.bare = f.control
  room : f.control.registers.length = room
  config : f.control.config = config

/-- The step that a flow of one scan takes. -/
theorem Keeps.step (hI : Scan.Upholds servers room config goal I) (h : f.Keeps I room config) :
    ∃ (s : Scan) (t : Step Scan), f.root = .scan s ∧ I s f.log f.rows ∧
      Scan.Keeps servers I goal s f.control f.log f.rows t ∧
      f.step = ⟨t.signal, .scan t.state, t.control.bare⟩ ∧
      t.control.bare.registers.length = room ∧ t.control.bare.config = config := by
  obtain ⟨s, hs, hi⟩ := h.scan
  have hf : f.control.fetchDone = false := by
    rw [← h.bare]
    rfl
  have hk := hI s f.control f.log f.rows hi hf h.room h.config
  refine ⟨s, s.step f.control, hs, hi, hk, ?_, hk.registers.trans h.room,
    (congrArg (·.2.1) (s.step_settings f.control)).trans h.config⟩
  rw [Flow.step, hs]
  rfl

theorem Keeps.next (hI : Scan.Upholds servers room config goal I) (h : f.Keeps I room config)
    (hn : f.next servers = some g) : g.Keeps I room config := by
  obtain ⟨s, t, -, -, hk, hstep, hroom, hconfig⟩ := h.step hI
  simp only [Flow.next, hstep] at hn
  cases hk with
  | more hi =>
    cases hn
    exact ⟨⟨_, rfl, hi⟩, rfl, hroom, hconfig⟩
  | row hd hi =>
    cases hn
    exact ⟨⟨_, rfl, hi⟩, rfl, hroom, hconfig⟩
  | dry | fail => cases hn
  | @request request hr =>
    cases hb : servers f.log request with
    | error e =>
      simp only [hb] at hn
      cases hn
    | ok batch =>
      simp only [hb, Operator.deliver] at hn
      have hregs := s.deliver_registers f.control.bare batch
      have hsettings : _ = f.control.bare.settings := (s.deliver_framed batch).settings _
      generalize hd : s.deliver f.control.bare batch = x at hn hregs hsettings
      obtain ⟨_ | e, u, d⟩ := x
      · cases hn
        exact ⟨⟨u, rfl, hr hb hd⟩, rfl, (congrArg List.length hregs).trans hroom,
          (congrArg (·.2.1) hsettings).trans hconfig⟩
      · cases hn

theorem Keeps.leads (hI : Scan.Upholds servers room config goal I) (h : f.Keeps I room config)
    (hl : f.Leads servers g) : g.Keeps I room config := by
  induction hl with
  | refl => exact h
  | tail _ hn ih => exact ih.next hI hn

/-- Where a flow of one scan ends, all rows were handed on. -/
theorem Keeps.ends (hI : Scan.Upholds servers room config goal I) (h : f.Keeps I room config)
    (he : f.Ends) : f.rows = goal ∧
      Keeps I room config { f with root := f.step.state, control := f.step.control } := by
  obtain ⟨s, t, -, -, hk, hstep, hroom, hconfig⟩ := h.step hI
  simp only [Flow.Ends, hstep] at he
  cases hk with
  | dry hi hg =>
    refine ⟨hg, ?_⟩
    rw [hstep]
    exact ⟨⟨_, rfl, hi⟩, rfl, hroom, hconfig⟩
  | more | row | request | fail => cases he

/-- A step that leaves the scan as it is leaves it at the same point. -/
theorem Keeps.stay (hI : Scan.Upholds servers room config goal I) (h : f.Keeps I room config)
    (hl : f.root.leaf = f.step.state.leaf) :
    Keeps I room config { f with root := f.step.state, control := f.step.control } := by
  obtain ⟨s, t, hs, hi, -, hstep, hroom, hconfig⟩ := h.step hI
  rw [hs, hstep] at hl
  have hst : s = t.state := hl
  rw [hstep]
  exact ⟨⟨_, rfl, hst ▸ hi⟩, rfl, hroom, hconfig⟩

end Flow

namespace Query
variable {servers : Servers} {I : ScanInvariant} {goal rows : List Value} {room : Nat}
  {config : Config} {q r : Query} {rowLimit : Option Nat} {more : Bool}
  {log log' : List FetchRequest}

theorem Runs.keeps (hI : Scan.Upholds servers room config goal I)
    (h : q.Runs servers rowLimit log more r log') (hc : q.control.needsContinuation = false)
    (hq : (q.flow log rows).Keeps I room config) :
    (r.flow log' rows).Keeps I room config ∧ (more = false → rows ++ r.pending.toList = goal) := by
  cases h.reached rows hc with
  | more hl _ hr =>
    refine ⟨?_, nofun⟩
    have hg := hq.leads hI hl
    rcases hr with hr | ⟨hleaf, hr⟩
    · exact hr ▸ hg
    · exact hr ▸ hg.stay hI hleaf
  | ended hl he hr =>
    obtain ⟨hrows, hk⟩ := (hq.leads hI hl).ends hI he
    exact ⟨hr ▸ hk, fun _ => (congrArg Flow.rows hr).trans hrows⟩

theorem pull_fresh (op : Operator) {c : Control} (hc : c.frame.Fresh) :
    (op.pull c).control.frame.Fresh := by
  induction h : op.work using Nat.strongRecOn generalizing op c with
  | ind n ih =>
    rw [Operator.pull_eq]
    split
    · rename_i hm
      exact ih _ (h ▸ Operator.step_work_lt (by rw [hm]; rfl)) _ (op.step_fresh hc) rfl
    · exact op.step_fresh hc

/-- Only its row limit stops a call that can still fetch. -/
theorem advance_more (hc : q.control.frame.Fresh) (h : q.advance rowLimit = (.finished true, r)) :
    rowLimit.any (· ≤ r.pending.size) = true := by
  induction hn : q.root.work using Nat.strongRecOn generalizing q with
  | ind n ih =>
    have hw := q.root.pull_work q.control
    have hf : (q.root.pull q.control).control.needsContinuation = false := (pull_fresh q.root hc).2
    rw [advance_eq] at h
    split at h
    · rename_i hl
      cases h
      exact hl
    · simp only at h
      split at h
      · rename_i hr
        exact ih _ (hn ▸ hw.2 hr) (pull_fresh q.root hc) h rfl
      · cases h
      · cases h
      · rw [hf] at h
        cases h
      · rw [hf] at h
        cases h

/-- A call that wants rows and stops for having them has some. -/
theorem pending_pos_of_more (hc : q.control.frame.Fresh)
    (h : q.advance rowLimit = (.finished true, r)) (hl : rowLimit ≠ some 0) :
    0 < r.pending.size := by
  have hmore := advance_more hc h
  cases rowLimit with
  | none => cases hmore
  | some n =>
    have hn : n ≤ r.pending.size := by simpa using hmore
    have : n ≠ 0 := fun h0 => hl (congrArg some h0)
    omega

/-- A call that is not the last gets a batch or returns a row. -/
theorem Runs.progress (h : q.Runs servers rowLimit log true r log') (hc : q.control.frame.Fresh)
    (hl : rowLimit ≠ some 0) : log.length < log'.length + r.pending.size := by
  cases h with
  | idle ha =>
    have := pending_pos_of_more hc ha hl
    omega
  | fetched =>
    rw [List.length_cons]
    omega

end Query

namespace Site
variable {servers : Servers} {errand : Errand} {I : ScanInvariant} {goal : List Value} {room : Nat}
  {config : Config} {w : Site}

/-- What is so of a drain of one scan, after some rows. -/
structure Keeps (I : ScanInvariant) (goal rows : List Value) (calls : Nat)
    (log : List FetchRequest) (d : Drained) : Prop where
  reached : ∃ s log', log' <:+ d.site.log ∧ I s log' (rows ++ d.rows) ∧
    ∀ t, d.standing = .suspended t → calls + log.length ≤ log'.length + d.rows.length
  complete : d.standing = .complete → rows ++ d.rows = goal

theorem drain_keeps (hI : Scan.Upholds servers room config goal I) (options : List CallOptions)
    {token : Option Token} {w : Site} {q : Query} {rows : List Value}
    (hq : w.client.opened errand token = .ok q) (hi : Client.Idle errand q)
    (hk : (q.flow w.log rows).Keeps I room config) :
    Keeps I goal rows options.length w.log (w.drain servers errand options token) := by
  obtain ⟨s, -, hs⟩ := hk.scan
  replace hs : I s w.log (rows ++ []) := by simpa [Query.flow, Flow.of, hi.pending] using hs
  induction options generalizing token w q rows s with
  | nil => exact ⟨⟨s, w.log, List.suffix_refl _, hs, fun _ _ => by simp⟩, fun h => by cases h⟩
  | cons first rest ih =>
    have hbegins := drain_begins servers first rest hq hi
    have hbegun : ((q.begun (first.maxMemory.getD w.client.config.maxMemory)).flow w.log
        rows).Keeps I room config := ⟨hk.scan, rfl, hk.room, hk.config⟩
    generalize w.drain servers errand (first :: rest) token = d at hbegins ⊢
    cases hbegins with
    | failed hlog => exact ⟨⟨s, w.log, hlog, hs, fun _ h => by cases h⟩, fun h => by cases h⟩
    | @last w' r h =>
      obtain ⟨hrk, hlast⟩ := h.runs.keeps hI rfl hbegun
      obtain ⟨t, -, ht⟩ := hrk.scan
      have hrows : (Drained.mk [Client.reportOf false r] .complete w').rows = r.pending.toList := by
        simp [Drained.rows, Client.reportOf]
      refine ⟨⟨t, w'.log, List.suffix_refl _, ?_, fun _ h => by cases h⟩, fun _ => ?_⟩
      · rw [hrows]
        exact ht
      · rw [hrows]
        exact hlast rfl
    | @paused w' r h =>
      obtain ⟨hrk, -⟩ := h.runs.keeps hI rfl hbegun
      have hrest : (r.rested.flow w'.log (rows ++ r.pending.toList)).Keeps I room config := by
        refine ⟨?_, rfl, hrk.room, hrk.config⟩
        simpa [Query.flow, Flow.of, Query.rested] using hrk.scan
      obtain ⟨t, -, ht⟩ := hrk.scan
      obtain ⟨⟨t, log', hlog, ht, hcalls⟩, hcomplete⟩ :=
        ih (h.opened rfl) h.idle hrest t (by simpa [Query.flow, Flow.of] using ht)
      generalize w'.drain servers errand rest (some ⟨r.id, r.sequence + 1⟩) = d at *
      have hrows : rows ++ (d.after (Client.reportOf true r)).rows =
          rows ++ r.pending.toList ++ d.rows := by
        rw [Drained.rows_after, ← List.append_assoc]
        rfl
      refine ⟨⟨t, log', hlog, hrows ▸ ht, fun t ht => ?_⟩, fun hd => hrows ▸ hcomplete hd⟩
      have hp := h.runs.progress ⟨rfl, rfl⟩ h.rowLimit
      have hn := hcalls t ht
      have hlen : (d.after (Client.reportOf true r)).rows.length =
          r.pending.size + d.rows.length := by
        simp [Drained.rows_after, Client.reportOf]
      rw [List.length_cons, hlen]
      omega

end Site

theorem ok_of_toOption {ε α : Type} {x : Except ε α} {a : α} (h : x.toOption = some a) :
    x = .ok a := by
  cases x with
  | error e => cases h
  | ok b =>
    cases h
    rfl

theorem Plan.reg_lt_of_validate {plan : Plan} {reg : Nat} {info : ReceiveInfo}
    (h : plan.validate = .ok ()) (hroot : plan.root = .receive reg info) :
    reg < plan.registers := by
  obtain ⟨-, -, h⟩ := ok_of_bind h
  obtain ⟨-, -, h⟩ := ok_of_bind h
  obtain ⟨-, -, h⟩ := ok_of_bind h
  rw [hroot] at h
  obtain ⟨_, hreg, -⟩ := ok_of_bind h
  unfold require at hreg
  split at hreg
  · rename_i hlt
    exact of_decide_eq_true hlt
  · cases hreg

/-- A query of a plan that is one scan begins with that scan, which has a register for its rows. -/
theorem Client.opened_scan {c : Client} {errand : Errand} {q : Query} {reg : Nat}
    {info : ReceiveInfo} (h : c.opened errand none = .ok q)
    (hroot : errand.plan.plan.root = .receive reg info) :
    reg < errand.plan.plan.registers ∧
      ∃ s, Scan.ofInfo reg info errand.plan.plan.shards = .ok s ∧
        ∀ (I : ScanInvariant) (log : List FetchRequest), I s log [] →
          (q.flow log []).Keeps I errand.plan.plan.registers c.config := by
  obtain ⟨externals, -, ho⟩ := opened_new h
  obtain ⟨hv, root, hs, rfl⟩ := ofPlan_eq ho
  rw [hroot, Operator.ofStep] at hs
  obtain ⟨s, hi, hr⟩ := ok_of_bind hs
  cases hr
  exact ⟨Plan.reg_lt_of_validate hv hroot, s, hi, fun I log hI => ⟨⟨s, rfl, hI⟩, rfl,
    List.length_replicate .., rfl⟩⟩

namespace Site
variable {servers : Servers} {errand : Errand} {w : Site} {reg : Nat} {info : ReceiveInfo}
  {goal : List Value}

/-- A new query of one scan keeps to an invariant that holds of the scan in the beginning. -/
theorem drain_new {q : Query} (I : ScanInvariant)
    (hroot : errand.plan.plan.root = .receive reg info)
    (hI : reg < errand.plan.plan.registers →
      Scan.Upholds servers errand.plan.plan.registers w.client.config goal I)
    (hstart : ∀ s, Scan.ofInfo reg info errand.plan.plan.shards = .ok s → I s w.log [])
    (ho : w.client.opened errand none = .ok q) (options : List CallOptions) :
    Keeps I goal [] options.length w.log (w.drain servers errand options none) := by
  obtain ⟨hreg, s, hs, hkeeps⟩ := Client.opened_scan ho hroot
  exact drain_keeps (hI hreg) options ho (Client.idle_new ho) (hkeeps I w.log (hstart s hs))

/-- A drain of one scan that has enough calls and no failure ends with all rows handed on. -/
theorem drain_completes (I : ScanInvariant) (answers : Nat) (options : List CallOptions)
    (hroot : errand.plan.plan.root = .receive reg info)
    (hI : reg < errand.plan.plan.registers →
      Scan.Upholds servers errand.plan.plan.registers w.client.config goal I)
    (hstart : ∀ s, Scan.ofInfo reg info errand.plan.plan.shards = .ok s → I s w.log [])
    (hbound : ∀ s log rows, I s log rows → log.length ≤ answers + w.log.length ∧
      rows.length ≤ goal.length)
    (hlong : answers + goal.length < options.length)
    (hok : ∀ e, (w.drain servers errand options none).standing ≠ .failed e) :
    (w.drain servers errand options none).standing = .complete ∧
      (w.drain servers errand options none).rows = goal := by
  cases ho : w.client.opened errand none with
  | error e =>
    cases options with
    | nil => cases hlong
    | cons first rest =>
      obtain ⟨w', e', he⟩ := drain_unopened servers first rest ho
      exact (hok e' (congrArg (·.standing) he)).elim
  | ok q =>
    obtain ⟨⟨t, log, -, ht, hcalls⟩, hcomplete⟩ := drain_new I hroot hI hstart ho options
    cases hd : (w.drain servers errand options none).standing with
    | complete => exact ⟨rfl, hcomplete hd⟩
    | failed e => exact (hok e hd).elim
    | suspended token =>
      have hb := hbound _ _ _ ht
      have := hcalls token hd
      rw [List.nil_append] at hb
      omega

end Site
end ShardQuery
