import Mathlib
import ShardQuery.Proofs.Session.Flow

/-!
Where a drain is cut into calls makes no difference. Two drains of one query under the same budget
go along the same flow, and a flow has one end.
-/

namespace ShardQuery

/-- Calls that differ in their row limits only. -/
def schedule (maxMemory : Option Nat) (rowLimits : List (Option Nat)) : List CallOptions :=
  rowLimits.map fun rowLimit => { rowLimit, maxMemory }

theorem schedule_cons (maxMemory rowLimit : Option Nat) (rest : List (Option Nat)) :
    schedule maxMemory (rowLimit :: rest) =
      { rowLimit, maxMemory } :: schedule maxMemory rest := rfl

namespace Flow

/-- What the caller has in the end if a flow ends here. -/
structure Delivers (f : Flow) (rows : List Value) (d : Drained) : Prop where
  ends : f.Ends
  rows : rows ++ d.rows = f.rows
  log : d.site.log = f.log
  total : d.total = some f.total
  memory : d.memory = some (f.step.state.close f.step.control).2.ledger.used

theorem Alike.leads_alike {servers : Servers} {f g h : Flow} (a : Alike f g)
    (hg : g.Leads servers h) : ∃ k, f.Leads servers k ∧ k.Alike h := by
  by_cases hn : g = h
  · exact ⟨f, .refl, hn ▸ a⟩
  · exact ⟨h, a.leads hg hn, .refl h⟩

end Flow

namespace Query

/-- A query at rest is where its last call left it. -/
theorem flow_rested {q : Query} {limit : Nat} (log : List FetchRequest) (rows : List Value)
    (h : q.control.ledger.limit = limit) :
    (q.rested.begun limit).flow log (rows ++ q.pending.toList) = q.flow log rows := by
  subst h
  simp [flow, Flow.of, rested, begun, Control.setMemoryLimit, Control.beginCall, Control.bare,
    Control.within, Control.blank]

theorem limit_of_runs {servers : Servers} {q r : Query} {rowLimit : Option Nat} {more : Bool}
    {limit : Nat} {log log' : List FetchRequest}
    (h : (q.begun limit).Runs servers rowLimit log more r log') :
    r.control.ledger.limit = limit :=
  congrArg (·.2.2.2.2.2) h.identity

end Query

namespace Site
variable {servers : Servers} {errand : Errand} {maxMemory : Option Nat} {w : Site}

/-- A drain that is complete has gone to the end of the flow. -/
theorem drain_delivers (rowLimits : List (Option Nat)) {token : Option Token} {w : Site}
    {q : Query} {f : Flow} {rows : List Value} (hq : w.client.opened errand token = .ok q)
    (hi : Client.Idle errand q)
    (hf : f.Alike ((q.begun (maxMemory.getD w.client.config.maxMemory)).flow w.log rows))
    (hd : (w.drain servers errand (schedule maxMemory rowLimits) token).standing = .complete) :
    ∃ g, f.Leads servers g ∧
      g.Delivers rows (w.drain servers errand (schedule maxMemory rowLimits) token) := by
  induction rowLimits generalizing token w q f rows with
  | nil => cases hd
  | cons rowLimit rest ih =>
    have hbegins := drain_begins servers { rowLimit, maxMemory } (schedule maxMemory rest) hq hi
    rw [schedule_cons] at hd ⊢
    generalize w.drain servers errand _ token = d at hbegins hd ⊢
    cases hbegins with
    | failed => cases hd
    | @last w' r h =>
      have hreached := h.runs.reached rows rfl
      cases hreached with
      | @ended g _ hl he hg =>
        obtain ⟨k, hk, ha⟩ := hf.leads_alike hl
        have hroot : r.root = g.step.state := congrArg Flow.root hg
        have hcontrol : r.control.bare = g.step.control := congrArg Flow.control hg
        have hrows : rows ++ r.pending.toList = g.rows := congrArg Flow.rows hg
        have hm := r.root.close_framed.frame r.rested.control.bare r.rested.control.frame
        refine ⟨k, hk, ?_, ?_, ?_, ?_, ?_⟩
        · rw [Flow.Ends, ha.step]
          exact he
        · rw [ha.rows]
          simpa [Drained.rows, Client.reportOf] using hrows
        · rw [ha.log]
          exact congrArg Flow.log hg
        · rw [ha.total]
          exact congrArg (fun f : Flow => some f.total) hg
        · rw [ha.step, ← hroot, ← hcontrol]
          exact congrArg (fun x => some x.2.ledger.used) hm
    | @paused w' r h =>
      have hreached := h.runs.reached rows rfl
      cases hreached with
      | @more g _ hl ha _ =>
        obtain ⟨k, hk, hka⟩ := hf.leads_alike hl
        have hflow := Query.flow_rested w'.log rows (Query.limit_of_runs h.runs)
        rw [← hflow, ← h.config] at ha
        obtain ⟨j, hj, hdel⟩ := ih (h.opened rfl) h.idle (hka.trans ha) hd
        refine ⟨j, hk.trans hj, hdel.ends, ?_, hdel.log, Drained.total_after hdel.total,
          Drained.memory_after hdel.memory⟩
        rw [← hdel.rows, Drained.rows_after, ← List.append_assoc]
        rfl

theorem opened_of_complete {options : List CallOptions} {token : Option Token}
    (hd : (w.drain servers errand options token).standing = .complete) :
    ∃ q, w.client.opened errand token = .ok q := by
  cases options with
  | nil => cases hd
  | cons first rest =>
    cases hq : w.client.opened errand token with
    | ok q => exact ⟨q, rfl⟩
    | error e =>
      obtain ⟨w', e', he⟩ := drain_unopened servers first rest hq
      rw [he] at hd
      cases hd

/-- Row limits change nothing but the places where the rows are cut: whatever they are, a drain that
is complete has the same rows in the same order, has sent the same requests, and has used and kept
the same. -/
theorem drain_congr_rowLimits {errand' : Errand} {w' : Site}
    (rowLimits rowLimits' : List (Option Nat))
    (hp : errand'.plan = errand.plan) (hb : errand'.bindings = errand.bindings)
    (hc : w'.client.config = w.client.config) (hl : w'.log = w.log)
    (hd : (w.drain servers errand (schedule maxMemory rowLimits) none).standing = .complete)
    (hd' : (w'.drain servers errand' (schedule maxMemory rowLimits') none).standing = .complete) :
    let d := w.drain servers errand (schedule maxMemory rowLimits) none
    let d' := w'.drain servers errand' (schedule maxMemory rowLimits') none
    d.rows = d'.rows ∧ d.site.log = d'.site.log ∧ d.total = d'.total ∧ d.memory = d'.memory := by
  obtain ⟨q, hq⟩ := opened_of_complete hd
  obtain ⟨q', hq'⟩ := opened_of_complete hd'
  have hsame : (q'.begun (maxMemory.getD w'.client.config.maxMemory)).flow w'.log [] =
      (q.begun (maxMemory.getD w.client.config.maxMemory)).flow w.log [] := by
    obtain ⟨externals, hx, ho⟩ := Client.opened_new hq
    obtain ⟨externals', hx', ho'⟩ := Client.opened_new hq'
    obtain ⟨-, root, hr, rfl⟩ := Client.ofPlan_eq ho
    obtain ⟨-, root', hr', rfl⟩ := Client.ofPlan_eq ho'
    rw [hp, hb, hx] at hx'
    rw [hp, hr] at hr'
    cases hx'
    cases hr'
    rw [hc, hl, hp]
    rfl
  obtain ⟨g, hg, dg⟩ := drain_delivers rowLimits hq (Client.idle_new hq) (.refl _) hd
  obtain ⟨g', hg', dg'⟩ := drain_delivers rowLimits' hq' (Client.idle_new hq') (.refl _) hd'
  rw [hsame] at hg'
  obtain rfl := Flow.ends_unique hg hg' dg.ends dg'.ends
  exact ⟨dg.rows.trans dg'.rows.symm, dg.log.trans dg'.log.symm, dg.total.trans dg'.total.symm,
    dg.memory.trans dg'.memory.symm⟩

end Site

namespace TwoPages

def row (k : Int32) : Value := .map [("k", .integer k)]

def servers : Servers := fun _ request =>
  match request.continuation with
  | none => .ok { rows := [row 2, row 1], continuation := some [1] }
  | some _ => .ok { rows := [row 0] }

def errand : Errand :=
  { newId := default
    plan := ⟨0,
      { root := .sort 1 (.receive 0 ⟨.allPartitions, [], []⟩) [{ field := "k" }] true
        registers := 2 }⟩ }

def site : Site := ⟨{ config := {} }, []⟩

end TwoPages

open TwoPages in
/-- A sort over two pages, with rows handed out all at once or one by one. -/
theorem Site.drain_twoPages :
    (site.drain servers errand (schedule none [none, none]) none).rows =
      (site.drain servers errand (schedule none (List.replicate 5 (some 1))) none).rows := by
  have hd : (site.drain servers errand (schedule none [none, none]) none).standing =
      .complete := by
    cbv
  have hd' : (site.drain servers errand (schedule none (List.replicate 5 (some 1)))
      none).standing = .complete := by
    cbv
  exact (drain_congr_rowLimits _ _ rfl rfl rfl rfl hd hd').1

end ShardQuery
