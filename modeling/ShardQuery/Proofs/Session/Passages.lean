import Mathlib.Logic.Relation
import ShardQuery.Proofs.Merge.Distinct
import ShardQuery.Proofs.Merge.Merging
import ShardQuery.Proofs.Session.Visits

/-!
The passage of a scan, without calls, without budgets and without a primary key. A query of one scan
goes along it, whatever its primary key is: the rows of the passage are handed on, or are counted as
dropped.
-/

namespace ShardQuery
open DuplicateSet

/-- How far a passage has come: a scan without a primary key, the requests answered, the latest
first, and the rows that the scan has come to. -/
structure Point where
  scan : Scan
  log : List FetchRequest
  rows : List Value

/-- Under what conditions a query of one scan runs. -/
structure Passage where
  servers : Servers
  config : Config
  /-- How many registers there are. -/
  room : Nat
  /-- The primary key, if there is one. -/
  keys : Option (List String)

namespace Passage

/-- The rows that are handed on. -/
def handed (m : Passage) (all : List Value) : List Value :=
  match m.keys with
  | none => all
  | some fields => firsts fields [] all

/-- The scan was shown just some rows, if it drops any. -/
def Knows (m : Passage) (all : List Value) (s : Scan) : Prop :=
  match m.keys with
  | none => s.duplicates = none
  | some fields => ∃ d, s.duplicates = some d ∧ d.Shown fields all

/-- The control of a call that can still fetch. -/
structure Ready (m : Passage) (c : Control) : Prop where
  fetch : c.fetchDone = false
  config : c.config = m.config
  room : c.registers.length = m.room

/-- One step along a passage. -/
inductive Moves (m : Passage) : Point → Point → Prop
  | more {s t : Scan} {log : List FetchRequest} {rows : List Value} {c d : Control}
    (hc : m.Ready c) (hs : s.step c = ⟨.more, t, d⟩) : Moves m ⟨s, log, rows⟩ ⟨t, log, rows⟩
  | row {s t : Scan} {log : List FetchRequest} {rows : List Value} {c d : Control}
    (hc : m.Ready c) (hs : s.step c = ⟨.row, t, d⟩) :
    Moves m ⟨s, log, rows⟩ ⟨t, log, rows ++ [d.reg t.reg]⟩
  | batch {s t : Scan} {log : List FetchRequest} {rows : List Value} {c d e : Control}
    {request : FetchRequest} {batch : Batch} (hc : m.Ready c)
    (hs : s.step c = ⟨.request request, s, c⟩) (hb : m.servers log request = .ok batch)
    (hd : s.deliver d batch = (none, t, e)) : Moves m ⟨s, log, rows⟩ ⟨t, request :: log, rows⟩

abbrev Leads (m : Passage) : Point → Point → Prop := Relation.ReflTransGen m.Moves

/-- There are no more rows. -/
def Ends (m : Passage) (a : Point) : Prop :=
  ∃ c t d, m.Ready c ∧ a.scan.step c = ⟨.dry, t, d⟩

section
variable {m : Passage} {a b : Point} {I : ScanInvariant} {goal : List Value}

/-- What all steps of a scan keep to is so all along its passage. -/
theorem Leads.keeps (hI : Scan.Upholds m.servers m.room m.config goal I) (h : m.Leads a b)
    (ha : I a.scan a.log a.rows) : I b.scan b.log b.rows := by
  induction h with
  | refl => exact ha
  | tail _ hm ih =>
    cases hm with
    | more hc hs =>
      have hk := hI _ _ _ _ ih hc.fetch hc.room hc.config
      rw [hs] at hk
      cases hk with
      | more h => exact h
    | row hc hs =>
      have hk := hI _ _ _ _ ih hc.fetch hc.room hc.config
      rw [hs] at hk
      cases hk with
      | row _ h => exact h
    | batch hc hs hb hd =>
      have hk := hI _ _ _ _ ih hc.fetch hc.room hc.config
      rw [hs] at hk
      cases hk with
      | request h => exact h hb hd

theorem Ends.rows_eq (hI : Scan.Upholds m.servers m.room m.config goal I) (he : m.Ends a)
    (ha : I a.scan a.log a.rows) : a.rows = goal := by
  obtain ⟨c, t, d, hc, hs⟩ := he
  have hk := hI _ _ _ _ ha hc.fetch hc.room hc.config
  rw [hs] at hk
  cases hk with
  | dry _ hg => exact hg

end

/-! ## Steps of a call -/

/-- A scan that is some way along a passage, and a control that has noted the rows it dropped but
for a number that were noted before. -/
structure Holds (m : Passage) (start : Point) (log : List FetchRequest) (rows : List Value)
    (n : Nat) (s : Scan) (c : Control) (all : List Value) : Prop where
  leads : m.Leads start ⟨s.unkeyed, log, all⟩
  knows : m.Knows all s
  hands : rows = m.handed all
  count : all.length = rows.length + (n + c.events.count .duplicateDropped)
  config : c.config = m.config
  room : c.registers.length = m.room
  reg : s.reg < m.room

/-- The end of a passage, all of whose rows were handed on or dropped. -/
def Ended (m : Passage) (start : Point) (log : List FetchRequest) (rows : List Value) (n : Nat) :
    Prop :=
  ∃ b, m.Leads start b ∧ m.Ends b ∧ b.log = log ∧ rows = m.handed b.rows ∧
    b.rows.length = rows.length + n

/-- The scan cannot get on without a batch. -/
def Asks (m : Passage) (s : Scan) (request : FetchRequest) : Prop :=
  ∃ c, m.Ready c ∧ s.unkeyed.step c = ⟨.request request, s.unkeyed, c⟩

/-- What a step of a call does along a passage. -/
inductive Bears (m : Passage) (start : Point) (log : List FetchRequest) (rows : List Value)
    (n : Nat) : Step Operator → Prop
  | more {s : Scan} {d : Control} (h : ∃ all, m.Holds start log rows n s d all)
    (hn : d.needsContinuation = false) : Bears m start log rows n ⟨.more, .scan s, d⟩
  | row {s : Scan} {d : Control}
    (h : ∃ all, m.Holds start log (rows ++ [d.reg s.reg]) n s d all)
    (hn : d.needsContinuation = false) : Bears m start log rows n ⟨.row, .scan s, d⟩
  | cut {s : Scan} {d : Control} (h : ∃ all, m.Holds start log rows n s d all)
    (hn : d.needsContinuation = true) : Bears m start log rows n ⟨.dry, .scan s, d⟩
  | dry {s : Scan} {d : Control}
    (h : m.Ended start log rows (n + d.events.count .duplicateDropped))
    (hn : d.needsContinuation = false) : Bears m start log rows n ⟨.dry, .scan s, d⟩
  | request {s : Scan} {d : Control} {request : FetchRequest}
    (h : ∃ all, m.Holds start log rows n s d all) (ha : m.Asks s request) :
    Bears m start log rows n ⟨.request request, .scan s, d⟩
  | fail {op : Operator} {d : Control} {e : QueryError} : Bears m start log rows n ⟨.fail e, op, d⟩

variable {m : Passage} {start : Point} {log : List FetchRequest} {rows all : List Value} {n : Nat}
  {s t : Scan} {c d : Control}

theorem Holds.reg_lt (h : m.Holds start log rows n s c all) : s.reg < c.registers.length :=
  h.room.symm ▸ h.reg

theorem Knows.of_eq (h : m.Knows all s) (ht : t.duplicates = s.duplicates) : m.Knows all t := by
  unfold Knows at h ⊢
  rwa [ht]

section
variable {row : Value} {k : Nat}

/-- Without a primary key, every row that the passage comes to is handed on. -/
theorem Holds.yield_unkeyed (hkeys : m.keys = none) (h : m.Holds start log rows n s c all)
    (hn : c.needsContinuation = false) (ht : t.duplicates = s.duplicates) (hr : t.reg = s.reg)
    (hl : m.Leads start ⟨t.unkeyed, log, all ++ [row]⟩) :
    m.Bears start log rows n ((t.yieldRow row (c.release k)).map .scan) := by
  have hk := h.knows
  have hrows := h.hands
  simp only [Knows, handed, hkeys] at hk hrows
  have htd : t.duplicates = none := ht.trans hk
  have hv : ((c.release k).setReg t.reg row).reg t.reg = row := Scan.reg_setReg (hr ▸ h.reg_lt) row
  rw [Scan.yieldRow_of_plain htd]
  refine .row ⟨all ++ [row], hl, ?_, ?_, ?_, h.config, ?_, hr ▸ h.reg⟩ hn
  · simpa only [Knows, hkeys] using htd
  · simp only [handed, hkeys, hv, hrows]
  · have := h.count
    simp only [hv, List.length_append, List.length_singleton]
    change all.length + 1 = rows.length + 1 + (n + c.events.count .duplicateDropped)
    omega
  · simpa [Control.setReg, Control.release] using h.room

/-- With a primary key, a row that the passage comes to is handed on or dropped. -/
theorem Holds.yield_keyed {fields : List String} (hkeys : m.keys = some fields)
    (h : m.Holds start log rows n s c all) (hn : c.needsContinuation = false)
    (ht : t.duplicates = s.duplicates) (hr : t.reg = s.reg)
    (hl : m.Leads start ⟨t.unkeyed, log, all ++ [row]⟩) :
    m.Bears start log rows n ((t.yieldRow row (c.release k)).map .scan) := by
  have hk := h.knows
  have hrows := h.hands
  simp only [Knows, handed, hkeys] at hk hrows
  obtain ⟨set, hset, hshown⟩ := hk
  have hall : firsts fields [] (all ++ [row]) = rows ++ firsts fields all [row] := by
    rw [firsts_append, ← hrows, List.nil_append]
  have hcount := h.count
  have hy := Scan.yieldRow_shows (ht.trans hset) hshown row (c.release k)
  generalize t.yieldRow row (c.release k) = u at hy ⊢
  cases hy with
  | repetition hrep hd hs =>
    refine .more ⟨all ++ [row], hl, ?_, ?_, ?_, h.config, h.room, hr ▸ h.reg⟩ hn
    · simpa only [Knows, hkeys] using ⟨_, hd, hs⟩
    · simp only [handed, hkeys, hall, firsts, if_pos hrep, List.append_nil]
    · change (all ++ [row]).length = rows.length +
        (n + (Event.duplicateDropped :: c.events).count .duplicateDropped)
      rw [List.length_append, List.length_singleton, List.count_cons_self]
      omega
  | @first set' ledger hrep hs =>
    have hv : (({ c.release k with ledger } : Control).setReg t.reg row).reg t.reg = row :=
      Scan.reg_setReg (hr ▸ h.reg_lt) row
    refine .row ⟨all ++ [row], hl, ?_, ?_, ?_, h.config, ?_, hr ▸ h.reg⟩ hn
    · simpa only [Knows, hkeys] using ⟨_, rfl, hs⟩
    · simp only [handed, hkeys, hall, firsts, if_neg hrep]
      exact congrArg (rows ++ [·]) hv
    · rw [List.length_append, List.length_append, List.length_singleton, List.length_singleton]
      change all.length + 1 = rows.length + 1 + (n + c.events.count .duplicateDropped)
      omega
    · simpa [Control.setReg, Control.release] using h.room
  | fail => exact .fail

theorem Holds.yield (h : m.Holds start log rows n s c all) (hn : c.needsContinuation = false)
    (ht : t.duplicates = s.duplicates) (hr : t.reg = s.reg)
    (hl : m.Leads start ⟨t.unkeyed, log, all ++ [row]⟩) :
    m.Bears start log rows n ((t.yieldRow row (c.release k)).map .scan) := by
  cases hkeys : m.keys with
  | none => exact h.yield_unkeyed hkeys hn ht hr hl
  | some fields => exact h.yield_keyed hkeys hn ht hr hl

end

theorem Holds.step (h : m.Holds start log rows n s c all) (hn : c.needsContinuation = false) :
    m.Bears start log rows n ((Operator.scan s).step c) := by
  have hready : m.Ready (c.spared s.duplicateMemory) := ⟨rfl, h.config, h.room⟩
  have hm := s.step_mirrors c
  change m.Bears start log rows n ((s.step c).map .scan)
  generalize hp : s.unkeyed.step (c.spared s.duplicateMemory) = p at hm
  generalize s.step c = u at hm ⊢
  cases hm with
  | @more t ht hr =>
    refine .more ⟨all, h.leads.tail (.more hready hp), h.knows.of_eq ht, h.hands, h.count, h.config,
      h.room, hr ▸ h.reg⟩ hn
  | @row t row k ht hr =>
    have hv : (((c.spared s.duplicateMemory).release k).setReg t.reg row).reg t.unkeyed.reg = row :=
      Scan.reg_setReg (hr ▸ h.reg_lt) row
    have hl := h.leads.tail (.row hready hp)
    rw [hv] at hl
    exact h.yield hn ht hr hl
  | dry ht => exact .dry ⟨_, h.leads, ⟨_, _, _, hready, hp⟩, rfl, h.hands, h.count⟩ hn
  | request => exact .request ⟨all, h⟩ ⟨_, hready, hp⟩
  | cut => exact .cut ⟨all, h.leads, h.knows, h.hands, h.count, h.config, h.room, h.reg⟩ rfl
  | fail => exact .fail

theorem Holds.pull (h : m.Holds start log rows n s c all) (hn : c.needsContinuation = false) :
    m.Bears start log rows n ((Operator.scan s).pull c) ∧
      ((Operator.scan s).pull c).signal ≠ .more := by
  induction hw : (Operator.scan s).work using Nat.strongRecOn generalizing s c all with
  | ind k ih =>
    have hs := h.step hn
    rw [Operator.pull_eq]
    split
    · rename_i hm
      have hlt : ((Operator.scan s).step c).state.work < (Operator.scan s).work :=
        Operator.step_work_lt (by rw [hm]; rfl)
      generalize (Operator.scan s).step c = u at hs hm hlt ⊢
      cases hs with
      | more h' hn' =>
        obtain ⟨all', h'⟩ := h'
        exact ih _ (hw ▸ hlt) h' hn' rfl
      | row | cut | dry | request | fail => cases hm
    · rename_i hm
      exact ⟨hs, hm⟩

/-! ## Calls -/

/-- A query of one scan that is some way along a passage, after some rows that were returned. -/
def Keeps (m : Passage) (start : Point) (log : List FetchRequest) (rows : List Value) (n : Nat)
    (q : Query) : Prop :=
  ∃ s all, q.root = .scan s ∧ m.Holds start log (rows ++ q.pending.toList) n s q.control all

/-- Where the pulling of rows leaves a query. -/
inductive Stands (m : Passage) (start : Point) (log : List FetchRequest) (rows : List Value)
    (n : Nat) : Progress × Query → Prop
  | more {r : Query} (h : m.Keeps start log rows n r) :
    Stands m start log rows n (.finished true, r)
  | ended {r : Query} (h : m.Ended start log (rows ++ r.pending.toList)
      (n + r.control.events.count .duplicateDropped)) :
    Stands m start log rows n (.finished false, r)
  | waiting {r : Query} {s : Scan} {request : FetchRequest} (hr : r.root = .scan s)
    (h : m.Keeps start log rows n r) (ha : m.Asks s request) :
    Stands m start log rows n (.waiting request, r)
  | failed {r : Query} {e : QueryError} : Stands m start log rows n (.failed e, r)

variable {q r : Query} {request : FetchRequest} {batch : Batch}

/-- Another control with the same settings, which has noted what it has to. -/
theorem Holds.of_control (h : m.Holds start log rows n s c all) {k : Nat}
    (hc : d.config = c.config) (hr : d.registers = c.registers)
    (he : k + d.events.count .duplicateDropped = n + c.events.count .duplicateDropped) :
    m.Holds start log rows k s d all :=
  { h with count := he ▸ h.count, config := hc.trans h.config, room := hr ▸ h.room }

theorem Keeps.begun (h : m.Keeps start log rows n q) (limit : Nat) :
    m.Keeps start log rows n (q.begun limit) := by
  obtain ⟨s, all, hs, hh⟩ := h
  exact ⟨s, all, hs, hh.of_control rfl rfl rfl⟩

theorem Keeps.quiet (h : m.Keeps start log rows n q) :
    m.Keeps start log rows (n + q.control.events.count .duplicateDropped) q.quiet := by
  obtain ⟨s, all, hs, hh⟩ := h
  exact ⟨s, all, hs, hh.of_control rfl rfl rfl⟩

/-- The rows of a query at rest were returned. -/
theorem Keeps.rested (h : m.Keeps start log rows n q) :
    m.Keeps start log (rows ++ q.pending.toList) (n + q.control.events.count .duplicateDropped)
      q.rested := by
  obtain ⟨s, all, hs, hh⟩ := h
  have := hh.of_control (d := q.rested.control) (k := n + q.control.events.count .duplicateDropped)
    rfl rfl rfl
  exact ⟨s, all, hs, by simpa [Query.rested] using this⟩

/-- Where a call ends that finishes. -/
theorem Stands.outcome {more : Bool} (h : m.Stands start log rows n (.finished more, r)) :
    let o := Client.reportOf more r
    let drops := n + r.control.events.count .duplicateDropped
    (o.token = none → m.Ended start log (rows ++ o.rows) drops) ∧
      (o.token.isSome → more = true ∧ m.Keeps start log (rows ++ o.rows) drops r.rested) := by
  cases h with
  | ended he => exact ⟨fun _ => he, by simp [Client.reportOf]⟩
  | more hk => exact ⟨by simp [Client.reportOf], fun _ => ⟨rfl, hk.rested⟩⟩

theorem Keeps.issue (h : m.Keeps start log rows n q) (hi : q.issue request = .ok r) :
    m.Keeps start log rows n r := by
  obtain ⟨s, all, hs, hh⟩ := h
  rw [Query.issue_ok hi]
  exact ⟨s, all, hs, hh.of_control rfl rfl (by simp [Control.emit])⟩

theorem Keeps.advance (h : m.Keeps start log rows n q) (hn : q.control.needsContinuation = false)
    (rowLimit : Option Nat) : m.Stands start log rows n (q.advance rowLimit) := by
  induction hw : q.root.work using Nat.strongRecOn generalizing q with
  | ind k ih =>
    obtain ⟨s, all, hs, hh⟩ := h
    obtain ⟨hb, hm⟩ := hh.pull hn
    have hlt := q.root.pull_work q.control
    rw [Query.advance_eq]
    split
    · exact .more ⟨s, all, hs, hh⟩
    · rw [hs] at hlt ⊢
      generalize (Operator.scan s).pull q.control = u at hb hm hlt ⊢
      cases hb with
      | more => exact (hm rfl).elim
      | @row t d ht hn' =>
        obtain ⟨all', ht⟩ := ht
        have hrows : rows ++ (q.pending.push (d.reg t.reg)).toList =
            rows ++ q.pending.toList ++ [d.reg t.reg] := by simp
        exact ih _ (by rw [← hw, hs]; exact hlt.2 rfl)
          (q := { q.moved ⟨.row, .scan t, d⟩ with pending := q.pending.push (d.reg t.reg) })
          ⟨t, all', rfl, hrows ▸ ht⟩ hn' rfl
      | @cut t d ht hn' =>
        obtain ⟨all', ht⟩ := ht
        simp only [hn']
        exact .more ⟨t, all', rfl, ht⟩
      | dry he hn' =>
        simp only [hn']
        exact .ended he
      | request ht ha =>
        obtain ⟨all', ht⟩ := ht
        exact .waiting rfl ⟨_, all', rfl, ht⟩ ha
      | fail => exact .failed

theorem Keeps.deliver (h : m.Keeps start log rows n q) (hs : q.root = .scan s)
    (hn : q.control.needsContinuation = false) (ha : m.Asks s request)
    (hb : m.servers log request = .ok batch) (rowLimit : Option Nat) :
    m.Stands start (request :: log) rows n (q.deliver rowLimit batch) := by
  obtain ⟨s', all, hs', hh⟩ := h
  obtain rfl : s = s' := by
    rw [hs] at hs'
    cases hs'
    rfl
  have hdeliver : q.root.deliver (q.control.recordBatch batch) batch =
      (let x := s.deliver (q.control.recordBatch batch) batch
      (x.1, .scan x.2.1, x.2.2)) := by
    rw [hs]
    rfl
  rw [Query.deliver_eq, Query.received, hdeliver]
  have hframe := (s.deliver_framed batch).frame_control (q.control.recordBatch batch)
  have hsettings := (s.deliver_framed batch).settings (q.control.recordBatch batch)
  have hregs := s.deliver_registers (q.control.recordBatch batch) batch
  rcases hd : s.deliver (q.control.recordBatch batch) batch with ⟨_ | e, t, d⟩
  · simp only [hd, Carries.control] at hframe hsettings hregs
    obtain ⟨hu, hst⟩ := Scan.deliver_unkeyed hd
    obtain ⟨c', hc', hask⟩ := ha
    refine Keeps.advance ⟨t, all, rfl, ?_⟩ ((congrArg (·.needsContinuation) hframe).trans hn)
      rowLimit
    exact
      { leads := hh.leads.tail (.batch hc' hask hb hu)
        knows := hh.knows.of_eq hst.duplicates
        hands := hh.hands
        count := hst.drops.symm ▸ hh.count
        config := (congrArg (·.2.1) hsettings).trans hh.config
        room := hregs.symm ▸ hh.room
        reg := hst.reg.symm ▸ hh.reg }
  · exact .failed

/-- A call that ends well goes some way along the passage: to its end, or to where the query rests.
In the second case it has got a batch or returns a row. -/
theorem Keeps.meets {limit : Nat} {fresh : Bool} {a : Attempt} {v : Visit} {noted : List Event}
    {left : Option Query} {o : Outcome} (h : m.Keeps start log rows n q)
    (hm : q.Meets limit fresh a v noted left)
    (hsent : ∀ request f, v.sent = some (request, f) →
      f = .replied (.ofAnswer (m.servers log request)))
    (ho : v.result = .ok o) :
    (o.token = none → m.Ended start ((v.sent.map Prod.fst).toList ++ log) (rows ++ o.rows)
      (n + noted.count .duplicateDropped)) ∧
    (o.token.isSome → (∃ r, left = some r ∧
        m.Keeps start ((v.sent.map Prod.fst).toList ++ log) (rows ++ o.rows)
          (n + noted.count .duplicateDropped) r) ∧
      (a.options.rowLimit ≠ some 0 →
        log.length < ((v.sent.map Prod.fst).toList ++ log).length + o.rows.length)) := by
  have hadvance := (h.begun limit).advance rfl a.options.rowLimit
  cases hm with
  | broken | spoiled | struck => cases ho
  | @idle more r ha =>
    cases ho
    rw [ha] at hadvance
    obtain ⟨hend, hmore⟩ := hadvance.outcome
    refine ⟨hend, fun ht => ?_⟩
    obtain ⟨rfl, hk⟩ := hmore ht
    refine ⟨⟨_, rfl, hk⟩, fun hz => ?_⟩
    have := Query.pending_pos_of_more ⟨rfl, rfl⟩ ha hz
    simp only [Option.map_none, Option.toList_none, List.nil_append, Client.reportOf,
      Array.length_toList]
    omega
  | @served request r s t batch more ha hi hf hd =>
    cases ho
    rw [ha] at hadvance
    obtain ⟨hfresh, -⟩ := Query.advance_again rfl ha
    have hspent := Query.issue_spent hfresh hi
    obtain ⟨control, hs⟩ := Query.issue_controls hi
    have hb : m.servers log request = .ok batch :=
      Reply.ok_of_ofAnswer (Fate.replied.inj ((hsent request a.fate rfl).symm.trans hf))
    cases hadvance with
    | @waiting _ scan _ hr hk hask =>
      have hroot : s.quiet.root = .scan scan := by
        rw [hs]
        exact hr
      have hstands := (hk.issue hi).quiet.deliver hroot hspent.2 hask hb a.options.rowLimit
      have hcount : n + (t.control.events ++ s.control.events).count .duplicateDropped =
          n + s.control.events.count .duplicateDropped +
            t.control.events.count .duplicateDropped := by
        rw [List.count_append]
        omega
      rw [hd] at hstands
      rw [hcount]
      obtain ⟨hend, hmore⟩ := hstands.outcome
      refine ⟨hend, fun ht => ?_⟩
      obtain ⟨rfl, hk'⟩ := hmore ht
      refine ⟨⟨_, rfl, hk'⟩, fun _ => ?_⟩
      simp only [Option.map_some, Option.toList_some, List.cons_append, List.nil_append,
        List.length_cons]
      omega

end Passage

namespace Site
variable {servers : Servers} {errand : Errand}

/-- A call to servers is a visit whose fetch, if it makes one, comes to what they answer. -/
theorem call_turns (servers : Servers) (errand : Errand) (options : CallOptions)
    (token : Option Token) (w : Site) :
    ∃ (a : Attempt) (v : Visit), a.options = options ∧
      v.result = (w.call servers errand options token).2 ∧
      (w.call servers errand options token).1.log = (v.sent.map Prod.fst).toList ++ w.log ∧
      (∀ request f, v.sent = some (request, f) →
        f = .replied (.ofAnswer (servers w.log request))) ∧
      Client.Turns w.client errand token a ((w.call servers errand options token).1.client, v) := by
  cases he : w.client.execute errand.newId errand.plan errand.bindings options token with
  | mk d state =>
    cases state with
    | done result =>
      have ht := w.client.attempt_turns errand token ⟨options, .timedOut 0⟩
      simp only [Client.attempt, he, Client.complete] at ht
      exact ⟨⟨options, .timedOut 0⟩, ⟨options, none, result⟩, rfl, by simp [call, he],
        by simp [call, he], by simp, by simpa [call, he] using ht⟩
    | waiting k =>
      let reply := Reply.ofAnswer (servers w.log k.request)
      have ht := w.client.attempt_turns errand token ⟨options, .replied reply⟩
      simp only [Client.attempt, he, Client.complete, Client.finish] at ht
      refine ⟨⟨options, .replied reply⟩,
        ⟨options, some (k.request, .replied reply), (d.answer k reply).2⟩, rfl, ?_, ?_, ?_, ?_⟩
      · simp only [call, he, answer, reply]
      · simp [call, he, answer]
      · rintro request f ⟨⟩
        rfl
      · simpa only [call, he, answer, reply] using ht

end Site

namespace Passage
variable {m : Passage} {start : Point}

/-- What is so of a drain on a passage, after some rows. -/
structure Drains (m : Passage) (start : Point) (rows : List Value) (n calls : Nat) (w : Site)
    (d : Drained) : Prop where
  complete : d.standing = .complete → ∃ k, m.Ended start d.site.log (rows ++ d.rows) (n + k) ∧
    Client.CountsDrops w.client d.site.client k
  suspended : ∀ t, d.standing = .suspended t → calls + w.log.length ≤
    d.site.log.length + d.rows.length ∧ ∃ b, m.Leads start b ∧ b.log = d.site.log ∧
      (rows ++ d.rows).length ≤ b.rows.length

theorem Keeps.drain {errand : Errand} (options : List CallOptions) {token : Option Token} {w : Site}
    {q : Query} {rows : List Value} {n : Nat} (hq : w.client.opened errand token = .ok q)
    (h : m.Keeps start w.log rows n q) :
    m.Drains start rows n options.length w (w.drain m.servers errand options token) := by
  induction options generalizing token w q rows n with
  | nil =>
    refine ⟨by simp [Site.drain], fun t _ => ⟨by simp [Site.drain, Drained.rows], ?_⟩⟩
    obtain ⟨s, all, -, hh⟩ := h
    refine ⟨_, hh.leads, rfl, ?_⟩
    have := hh.count
    simp only [List.length_append, Site.drain, Drained.rows, List.flatMap_nil, List.length_nil]
      at this ⊢
    omega
  | cons first rest ih =>
    obtain ⟨a, v, ha, hresult, hlog, hsent, hturns⟩ :=
      Site.call_turns m.servers errand first token w
    rcases hc : w.call m.servers errand first token with ⟨w', e | o⟩
    · rw [Site.drain_of_error hc]
      exact ⟨by simp, by simp⟩
    · rw [hc] at hresult hlog hturns
      cases hturns with
      | refused => cases hresult
      | @met _ _ q' noted left hconfig ho hm hl hn =>
        obtain rfl : q' = q := by
          rw [hq] at ho
          cases ho
          rfl
        obtain ⟨hend, hmore⟩ := h.meets hm hsent hresult
        rw [← hlog] at hend hmore
        cases ht : o.token with
        | none =>
          rw [Site.drain_of_last hc ht]
          refine ⟨fun _ => ⟨_, ?_, hn⟩, by simp⟩
          simpa [Drained.rows] using hend ht
        | some t =>
          obtain ⟨⟨r, rfl, hr⟩, hprogress⟩ := hmore (by rw [ht]; rfl)
          have hopened : w'.client.opened errand (some t) = .ok r :=
            ok_of_toOption (hl t (by rw [Visit.next, hresult]; exact ht))
          obtain ⟨hcomplete, hsuspended⟩ := ih hopened hr
          rw [Site.drain_of_token hc ht]
          refine ⟨fun hd => ?_, fun t' hd => ?_⟩
          · obtain ⟨k, he, hk⟩ := hcomplete hd
            refine ⟨noted.count .duplicateDropped + k, ?_, hn.trans hk⟩
            rw [← Nat.add_assoc, Drained.rows_after, ← List.append_assoc]
            exact he
          · obtain ⟨hcalls, b, hb, hblog, hbrows⟩ := hsuspended t' hd
            obtain ⟨hz, -⟩ := Site.call_ok hc
            have := hprogress (by rw [ha]; exact hz)
            rw [Drained.rows_after, ← List.append_assoc]
            refine ⟨?_, b, hb, hblog, hbrows⟩
            simp only [List.length_cons, List.length_append] at this ⊢
            change rest.length + 1 + w.log.length ≤
              (w'.drain m.servers errand rest (some t)).site.log.length + _
            omega

end Passage
end ShardQuery
