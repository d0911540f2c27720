import ShardQuery.Proofs.Merge.Partitions
import ShardQuery.Proofs.Session.Passages

/-!
To drop duplicates is to filter the rows that a scan returns without a primary key. A passage has
one end where the scan alone decides about its steps. Where the budget has a say, since it decides
how many rows partitions are asked for, the merge comes to the same rows all the same.
-/

namespace ShardQuery
open DuplicateSet

namespace Scan
variable {s t u : Scan} {c d e : Control}

/-- A scan whose requests do not depend on the budget: it is not one of partitions that it finds. -/
def Steady (s : Scan) : Prop :=
  s.distribution = .allPartitions → s.phase = .plain ∨ s.phase = .done

theorem steady_ofInfo {reg : Nat} {info : ReceiveInfo} {shards : List Int}
    (hn : ¬(info.distribution = .allPartitions ∧ info.specs ≠ []))
    (h : ofInfo reg info shards = .ok s) : s.Steady := by
  unfold ofInfo at h
  simp only at h
  split at h
  · cases h
    exact fun _ => .inl rfl
  · cases h
    exact fun _ => .inl rfl
  · rename_i hd hs
    exact (hn ⟨hd, fun he => hs he⟩).elim
  · rename_i hd _
    split at h
    · cases h
    · cases h
      rw [Steady, hd]
      simp

theorem addVirtualScans_unique {scans : List VirtualScan} {c' e : Control}
    (h : s.addVirtualScans c scans = (none, t, d))
    (h' : s.addVirtualScans c' scans = (none, u, e)) : t = u := by
  induction scans generalizing s c c' with
  | nil =>
    cases h
    cases h'
    rfl
  | cons scan rest ih =>
    unfold addVirtualScans at h h'
    split at h
    · cases h
    · rename_i id hid
      simp only [hid] at h'
      exact ih h h'

/-- A batch that is taken in does the same to a scan under any budget. -/
theorem deliver_unique {batch : Batch} {c' : Control} (h : s.deliver c batch = (none, t, d))
    (h' : s.deliver c' batch = (none, u, e)) : t = u := by
  unfold deliver at h h'
  split at h <;> rename_i hp
  · simp only [hp] at h'
    unfold stagePlain at h h'
    split at h
    · cases h
    · split at h'
      · cases h'
      · cases h
        cases h'
        rfl
  · simp only [hp] at h'
    unfold stagePhase1 at h h'
    split at h
    · cases h
    · rename_i info hinfo
      simp only [hinfo] at h'
      split at h
      · cases h
      · split at h'
        · cases h'
        · split at h <;> rename_i hin
          · simp only [hin, ↓reduceIte] at h'
            cases h
            cases h'
            rfl
          · simp only [hin] at h'
            cases h
            cases h'
            rfl
  · simp only [hp] at h'
    unfold stageMerge at h h'
    split at h
    · cases h
    · rename_i top queue hq
      simp only [hq] at h h'
      split at h
      · cases h
      · split at h'
        · cases h'
        · exact addVirtualScans_unique h h'
  · simp only [hp] at h'
    cases h
    cases h'
    rfl

end Scan

namespace Passage
variable {m : Passage} {a b b' : Point} {s t u : Scan} {c c' d e : Control}

/-- A scan without a primary key that decides alone about its steps. -/
structure Settled (m : Passage) (s : Scan) : Prop where
  duplicates : s.duplicates = none
  steady : s.Steady
  reg : s.reg < m.room

/-- Whatever the control, the step is the same: one without a row, or one with a given row. -/
inductive Fixed (m : Passage) (s : Scan) : Prop
  | still (signal : Signal) (t : Scan) (hr : signal ≠ .row) (ht : m.Settled t)
    (hs : ∀ c, m.Ready c → s.step c = ⟨signal, t, c⟩)
  | row (row : Value) (t : Scan) (ht : m.Settled t)
    (hs : ∀ c, m.Ready c → s.step c = ⟨.row, t, (c.release row.size).setReg t.reg row⟩)

theorem Settled.fixed_plain (h : m.Settled s) (hp : s.phase = .plain) : m.Fixed s := by
  have hstep (c : Control) : s.step c = s.stepPlain c := by simp only [Scan.step, hp]
  cases hpop : s.stream.pop? with
  | some x =>
    obtain ⟨row, stream⟩ := x
    refine .row row { s with stream } ⟨h.duplicates, h.steady, h.reg⟩ fun c _ => ?_
    rw [hstep, Scan.stepPlain, hpop]
    exact Scan.yieldRow_of_plain (s := { s with stream }) h.duplicates row _
  | none =>
    cases hr : s.stream.hasRemote with
    | false =>
      refine .still .dry { s with phase := .done } (by simp)
        ⟨h.duplicates, fun _ => .inr rfl, h.reg⟩ fun c _ => ?_
      simp [hstep, Scan.stepPlain, hpop, hr]
    | true =>
      refine .still (.request (s.stream.request m.config.batchLimit)) s (by simp) h fun c hc => ?_
      simp [hstep, Scan.stepPlain, hpop, hr, Scan.ask, hc.fetch, hc.config]

theorem Settled.fixed_merging (h : m.Settled s) (hp : s.phase = .merging) : m.Fixed s := by
  have hstep (c : Control) : s.step c = s.stepMerge c := by simp only [Scan.step, hp]
  have hdist : s.distribution ≠ .allPartitions := by
    intro hall
    rcases h.steady hall with hph | hph <;> rw [hph] at hp <;> cases hp
  cases hq : s.queue.pop? (Feed.compare s.specs) with
  | none =>
    refine .still .dry { s with phase := .done } (by simp)
      ⟨h.duplicates, fun _ => .inr rfl, h.reg⟩ fun c _ => ?_
    simp only [hstep, Scan.stepMerge, hq]
  | some x =>
    obtain ⟨top, queue⟩ := x
    have hqueue (queue : Heap Feed) : m.Settled { s with queue } :=
      ⟨h.duplicates, h.steady, h.reg⟩
    cases hpop : top.pop? with
    | some y =>
      obtain ⟨row, rest⟩ := y
      have hrest : m.Settled (if rest.isExhausted then { s with queue }
          else Scan.enqueue { s with queue } rest) := by
        split
        · exact hqueue queue
        · exact hqueue _
      refine .row row _ hrest fun c _ => ?_
      simp only [hstep, Scan.stepMerge, hq, hpop]
      exact Scan.yieldRow_of_plain hrest.duplicates row _
    | none =>
      cases hr : top.hasRemote with
      | false =>
        refine .still .more { s with queue } (by simp) (hqueue queue) fun c _ => ?_
        simp [hstep, Scan.stepMerge, hq, hpop, hr]
      | true =>
        refine .still (.request (top.request m.config.batchLimit)) s (by simp) h fun c hc => ?_
        have hlimit : s.mergeLimit c = .ok m.config.batchLimit := by
          simp [Scan.mergeLimit, hdist, hc.config]
        simp [hstep, Scan.stepMerge, hq, hpop, hr, Scan.ask, hc.fetch, hlimit]

theorem Settled.fixed (h : m.Settled s) : m.Fixed s := by
  cases hp : s.phase with
  | done => exact .still .dry s (by simp) h fun c _ => by simp only [Scan.step, hp]
  | discovering =>
    refine .still (.request (s.phase1Request m.config.batchLimit)) s (by simp) h fun c hc => ?_
    simp [Scan.step, hp, Scan.ask, hc.fetch, hc.config]
  | plain => exact h.fixed_plain hp
  | merging => exact h.fixed_merging hp

/-- Two steps of a settled scan are one. -/
theorem Settled.alike {signal signal' : Signal} (h : m.Settled s) (hc : m.Ready c)
    (hc' : m.Ready c') (hs : s.step c = ⟨signal, t, d⟩) (hs' : s.step c' = ⟨signal', u, e⟩) :
    signal = signal' ∧ t = u ∧ m.Settled t ∧
      (signal = .row → d.reg t.reg = e.reg u.reg) := by
  cases h.fixed with
  | still signal t hr ht hfix =>
    rw [hfix c hc] at hs
    rw [hfix c' hc'] at hs'
    cases hs
    cases hs'
    exact ⟨rfl, rfl, ht, fun he => (hr he).elim⟩
  | row row t ht hfix =>
    rw [hfix c hc] at hs
    rw [hfix c' hc'] at hs'
    cases hs
    cases hs'
    refine ⟨rfl, rfl, ht, fun _ => ?_⟩
    have hreg {c : Control} (hc : m.Ready c) :
        ((c.release row.size).setReg t.reg row).reg t.reg = row :=
      Scan.reg_setReg (hc.room.symm ▸ ht.reg) row
    exact (hreg hc).trans (hreg hc').symm

theorem Settled.moves (h : m.Settled a.scan) (hm : m.Moves a b) : m.Settled b.scan := by
  cases hm with
  | more hc hs => exact (h.alike hc hc hs hs).2.2.1
  | row hc hs => exact (h.alike hc hc hs hs).2.2.1
  | batch hc hs hb hd =>
    obtain ⟨-, hst⟩ := Scan.deliver_unkeyed hd
    refine ⟨hst.duplicates.trans h.duplicates, fun hall => ?_, hst.reg.symm ▸ h.reg⟩
    rcases h.steady (hst.distribution ▸ hall) with hp | hp
    · exact .inl ((hst.phase (by rw [hp]; simp)).trans hp)
    · exact .inr ((hst.phase (by rw [hp]; simp)).trans hp)

/-- The passage of a settled scan goes one way. -/
theorem Settled.unique (h : m.Settled a.scan) (hb : m.Moves a b) (hb' : m.Moves a b') :
    b = b' := by
  cases hb with
  | more hc hs =>
    cases hb' with
    | more hc' hs' => rw [(h.alike hc hc' hs hs').2.1]
    | row hc' hs' => cases (h.alike hc hc' hs hs').1
    | batch hc' hs' => cases (h.alike hc hc' hs hs').1
  | row hc hs =>
    cases hb' with
    | row hc' hs' =>
      obtain ⟨-, rfl, -, hv⟩ := h.alike hc hc' hs hs'
      rw [hv rfl]
    | more hc' hs' => cases (h.alike hc hc' hs hs').1
    | batch hc' hs' => cases (h.alike hc hc' hs hs').1
  | batch hc hs hb hd =>
    cases hb' with
    | batch hc' hs' hb' hd' =>
      cases (h.alike hc hc' hs hs').1
      rw [hb] at hb'
      cases hb'
      rw [Scan.deliver_unique hd hd']
    | more hc' hs' => cases (h.alike hc hc' hs hs').1
    | row hc' hs' => cases (h.alike hc hc' hs hs').1

theorem Settled.not_moves (h : m.Settled a.scan) (he : m.Ends a) : ¬m.Moves a b := by
  obtain ⟨c, t, d, hc, hs⟩ := he
  intro hm
  cases hm with
  | more hc' hs' => cases (h.alike hc hc' hs hs').1
  | row hc' hs' => cases (h.alike hc hc' hs hs').1
  | batch hc' hs' => cases (h.alike hc hc' hs hs').1

/-- All that a settled scan comes to lies before its end. -/
theorem Settled.leads_end (h : m.Settled a.scan) (hb : m.Leads a b) (he : m.Leads a b')
    (ends : m.Ends b') : m.Leads b b' := by
  induction hb using Relation.ReflTransGen.head_induction_on with
  | refl => exact he
  | head hm _ ih =>
    rcases he.cases_head with rfl | ⟨k, hk, hl⟩
    · exact (h.not_moves ends hm).elim
    · exact ih (h.moves hm) (h.unique hk hm ▸ hl)

theorem Settled.end_unique (h : m.Settled a.scan) (hb : m.Leads a b) (he : m.Leads a b')
    (ends : m.Ends b) (ends' : m.Ends b') : b = b' := by
  rcases (h.leads_end hb he ends').cases_head with rfl | ⟨k, hk, -⟩
  · rfl
  · have hs : m.Settled b.scan := by
      clear he ends ends' hk
      induction hb with
      | refl => exact h
      | tail _ hm ih => exact ih.moves hm
    exact (hs.not_moves ends hk).elim

/-- Requests and rows only become more. -/
theorem Leads.length_le (h : m.Leads a b) :
    a.log.length + a.rows.length ≤ b.log.length + b.rows.length := by
  induction h with
  | refl => exact le_refl _
  | tail _ hm ih =>
    refine ih.trans ?_
    cases hm with
    | more => exact le_refl _
    | row => simp
    | batch => simp

/-- The primary key makes no difference to a passage. -/
theorem Leads.with_keys (keys : Option (List String)) (h : m.Leads a b) :
    Leads { m with keys } a b := by
  refine Relation.ReflTransGen.mono (fun a b hm => ?_) _ _ h
  cases hm with
  | more hc hs => exact .more ⟨hc.fetch, hc.config, hc.room⟩ hs
  | row hc hs => exact .row ⟨hc.fetch, hc.config, hc.room⟩ hs
  | batch hc hs hb hd => exact .batch ⟨hc.fetch, hc.config, hc.room⟩ hs hb hd

theorem Ends.with_keys (keys : Option (List String)) (h : m.Ends a) : Ends { m with keys } a := by
  obtain ⟨c, t, d, hc, hs⟩ := h
  exact ⟨c, t, d, ⟨hc.fetch, hc.config, hc.room⟩, hs⟩

end Passage

/-- The partitions that a scan finds, if it is one that finds partitions, are fixed and sorted, and
the servers hand them out in pages as they like, if asked for as many rows as a configuration with a
positive fetch cap allows. Nothing is demanded of servers for other scans. -/
def HandsOut (servers : Servers) (config : Config) (log : List FetchRequest)
    (info : ReceiveInfo) : Prop :=
  info.distribution = .allPartitions → info.specs ≠ [] →
    1 ≤ config.partitionFetchCap ∧ ∃ (partitions : List (Int × List Value)) (answers : Nat),
      partitions.Pairwise (·.1 < ·.1) ∧ (∀ p ∈ partitions, SortedRows info.specs p.2) ∧
      Discovering servers config.batchLimit
        (fun limit => 1 ≤ limit ∧ limit ≤ config.partitionFetchCap) answers log none partitions []

namespace Passage
variable {m : Passage} {reg : Nat} {info : ReceiveInfo} {shards : List Int} {s : Scan}
  {log : List FetchRequest} {b : Point}

/-- A passage comes to the same rows at all its ends, and does not go on for ever. -/
theorem ends_alike (hs : Scan.ofInfo reg info shards = .ok s) (hkey : info.primaryKey = [])
    (hreg : reg < m.room) (hserved : HandsOut m.servers m.config log info)
    (hb : m.Leads ⟨s, log, []⟩ b) (ends : m.Ends b) :
    (∀ b', m.Leads ⟨s, log, []⟩ b' → m.Ends b' → b'.rows = b.rows) ∧
      ∃ bound, ∀ b', m.Leads ⟨s, log, []⟩ b' → b'.log.length + b'.rows.length ≤ bound := by
  by_cases hn : info.distribution = .allPartitions ∧ info.specs ≠ []
  · obtain ⟨hcap, partitions, answers, hids, hsorted, hserving⟩ := hserved hn.1 hn.2
    let goal : Merge :=
      { servers := m.servers
        limits := fun limit => 1 ≤ limit ∧ limit ≤ m.config.partitionFetchCap
        specs := info.specs
        answers := answers + log.length
        goal := sortRows info.specs (partitions.flatMap (·.2)) }
    have hI := Scan.MergesFound.upholds (m := goal) hreg rfl hcap hids hsorted rfl
    have hstart : s.MergesFound goal reg m.config.batchLimit partitions log [] :=
      .inl ⟨_, _, Scan.discovers_ofInfo hs hn.1 hn.2 hkey rfl ⟨answers, rfl, hserving⟩⟩
    refine ⟨fun b' hb' ends' => ?_, goal.answers + goal.goal.length, fun b' hb' => ?_⟩
    · rw [ends'.rows_eq hI (hb'.keeps hI hstart), ends.rows_eq hI (hb.keeps hI hstart)]
    · have hbound := (hb'.keeps hI hstart).bound
      omega
  · obtain ⟨-, hr, hd⟩ := Scan.ofInfo_unkeyed hs
    have hset : m.Settled s :=
      ⟨by rw [hd, hkey]; rfl, Scan.steady_ofInfo hn hs, hr.symm ▸ hreg⟩
    refine ⟨fun b' hb' ends' => ?_, _, fun b' hb' => (hset.leads_end hb' hb ends).length_le⟩
    rw [Settled.end_unique (a := ⟨s, log, []⟩) hset hb' hb ends' ends]

/-- A new query of one scan is at the beginning of a passage. -/
theorem Keeps.new {w : Site} {errand : Errand} {q : Query}
    (ho : w.client.opened errand none = .ok q) (hroot : errand.plan.plan.root = .receive reg info)
    (hconfig : m.config = w.client.config) (hroom : m.room = errand.plan.plan.registers)
    (hkeys : m.keys = if info.primaryKey.isEmpty then none else some info.primaryKey) :
    ∃ s, Scan.ofInfo reg info errand.plan.plan.shards = .ok s ∧ reg < m.room ∧
      m.Keeps ⟨s.unkeyed, w.log, []⟩ w.log [] 0 q := by
  obtain ⟨externals, -, ho⟩ := Client.opened_new ho
  obtain ⟨hv, root, hs, rfl⟩ := Client.ofPlan_eq ho
  rw [hroot, Operator.ofStep] at hs
  obtain ⟨s, hi, hr⟩ := ok_of_bind hs
  cases hr
  have hreg : reg < m.room := hroom ▸ Plan.reg_lt_of_validate hv hroot
  obtain ⟨-, hsreg, hd⟩ := Scan.ofInfo_unkeyed hi
  refine ⟨s, hi, hreg, s, [], rfl, .refl, ?_, ?_, ?_, hconfig.symm, ?_, hsreg.symm ▸ hreg⟩
  · unfold Knows
    rw [hkeys]
    cases hk : info.primaryKey.isEmpty <;> simp only [hk] at hd
    · exact ⟨_, hd, shown_nil _⟩
    · exact hd
  · unfold handed
    rw [hkeys]
    cases info.primaryKey.isEmpty <;> rfl
  · rfl
  · exact (List.length_replicate ..).trans hroom.symm

end Passage

namespace Site
variable {servers : Servers} {errand : Errand} {w : Site} {reg : Nat} {info : ReceiveInfo}

/-- The passage of a query that a site begins. -/
def passage (servers : Servers) (errand : Errand) (w : Site) (keys : Option (List String)) :
    Passage :=
  { servers, config := w.client.config, room := errand.plan.plan.registers, keys }

/-- A drain of one scan is on a passage that begins with the scan as it would be without a primary
key. -/
theorem drain_passes (options : List CallOptions) {keys : Option (List String)} {q : Query}
    (ho : w.client.opened errand none = .ok q) (hroot : errand.plan.plan.root = .receive reg info)
    (hkeys : keys = if info.primaryKey.isEmpty then none else some info.primaryKey) :
    let m := w.passage servers errand keys
    ∃ s, Scan.ofInfo reg { info with primaryKey := [] } errand.plan.plan.shards = .ok s ∧
      reg < m.room ∧ m.Drains ⟨s, w.log, []⟩ [] 0 options.length w
        (w.drain servers errand options none) := by
  obtain ⟨s, hs, hreg, hk⟩ := Passage.Keeps.new (m := w.passage servers errand keys) ho hroot rfl
    rfl hkeys
  exact ⟨s.unkeyed, (Scan.ofInfo_unkeyed hs).1, hreg, hk.drain options ho⟩

/-- The rows of a drain without a primary key are those of the passage that drains with one go
along. -/
theorem drain_plain (errand : Errand) (w : Site) {plain : Errand} {w' : Site}
    {options : List CallOptions}
    (hplain : plain.plan.plan =
      { errand.plan.plan with root := .receive reg { info with primaryKey := [] } })
    (hconfig : w'.client.config = w.client.config) (hlog : w'.log = w.log)
    (hd : (w'.drain servers plain options none).standing = .complete)
    (keys : Option (List String)) :
    let m := w.passage servers errand keys
    ∃ s b, Scan.ofInfo reg { info with primaryKey := [] } errand.plan.plan.shards = .ok s ∧
      reg < m.room ∧ m.Leads ⟨s, w.log, []⟩ b ∧ m.Ends b ∧
      (w'.drain servers plain options none).rows = b.rows := by
  have hpassage : { w'.passage servers plain none with keys } = w.passage servers errand keys := by
    simp only [passage, hconfig, hplain]
  obtain ⟨q, hq⟩ := opened_of_complete hd
  obtain ⟨s, hs, hreg, hdrains⟩ := drain_passes options hq
    (by rw [hplain]) (show none = if [].isEmpty then none else some [] from rfl)
  obtain ⟨n, ⟨b, hb, ends, -, hrows, -⟩, -⟩ := hdrains.complete hd
  replace hb := hpassage ▸ hb.with_keys keys
  replace ends := hpassage ▸ ends.with_keys keys
  rw [hplain] at hs
  rw [hlog] at hb
  refine ⟨s, b, hs, ?_, hb, ends, hrows⟩
  rw [← hpassage]
  exact hreg

/-- To drop duplicates is to filter. A drain with a primary key returns the rows that the drain
without one returns, but for those whose key is encoded as that of a row before them, and it counts
the rows that are missing. This is so for all servers, and whatever is asked of single calls; only
if the scan finds partitions, which it asks for as many rows as the budget holds, the partitions
have to be the same in both drains. A drain with a primary key and enough calls ends if no call
fails. -/
theorem drain_distinct (servers : Servers) (w w' : Site) (errand plain : Errand) {reg : Nat}
    {info : ReceiveInfo} (options' : List CallOptions)
    (hroot : errand.plan.plan.root = .receive reg info) (hkey : info.primaryKey ≠ [])
    (hplain : plain.plan.plan =
      { errand.plan.plan with root := .receive reg { info with primaryKey := [] } })
    (hconfig : w'.client.config = w.client.config) (hlog : w'.log = w.log)
    (hserved : HandsOut servers w.client.config w.log info)
    (hcomplete : (w'.drain servers plain options' none).standing = .complete) :
    let rows := (w'.drain servers plain options' none).rows
    (∀ options, (w.drain servers errand options none).standing = .complete →
      let d := w.drain servers errand options none
      d.rows = firsts info.primaryKey [] rows ∧
        Client.CountsDrops w.client d.site.client (rows.length - d.rows.length)) ∧
    ∃ calls, ∀ options, calls < options.length →
      (∀ e, (w.drain servers errand options none).standing ≠ .failed e) →
        (w.drain servers errand options none).standing = .complete := by
  intro rows
  have hkeys : some info.primaryKey =
      if info.primaryKey.isEmpty then none else some info.primaryKey := by
    rw [if_neg (by simpa using hkey)]
  obtain ⟨s, b, hs, hreg, hb, ends, hrows⟩ := drain_plain errand w hplain hconfig hlog
    hcomplete (some info.primaryKey)
  replace hrows : rows = b.rows := hrows
  obtain ⟨halike, bound, hbound⟩ := Passage.ends_alike hs rfl hreg hserved hb ends
  have hdrains {options : List CallOptions} {q : Query}
      (ho : w.client.opened errand none = .ok q) :
      (w.passage servers errand (some info.primaryKey)).Drains ⟨s, w.log, []⟩ [] 0 options.length w
        (w.drain servers errand options none) := by
    obtain ⟨t, ht, -, hdrains⟩ := drain_passes options ho hroot hkeys
    rw [hs] at ht
    exact Except.ok.inj ht ▸ hdrains
  refine ⟨fun options hd => ?_, bound, fun options hlong hok => ?_⟩
  · obtain ⟨q, hq⟩ := opened_of_complete hd
    obtain ⟨n, ⟨c, hc, ends', -, hrows', hcount⟩, hn⟩ := (hdrains hq).complete hd
    rw [halike c hc ends', ← hrows] at hrows' hcount
    rw [List.nil_append] at hrows' hcount
    refine ⟨hrows', ?_⟩
    rw [hcount, Nat.zero_add, Nat.add_sub_cancel_left]
    exact hn
  · cases hd : (w.drain servers errand options none).standing with
    | complete => rfl
    | failed e => exact (hok e hd).elim
    | suspended token =>
      cases ho : w.client.opened errand none with
      | error e =>
        obtain ⟨first, rest, rfl⟩ :=
          List.exists_cons_of_length_pos (Nat.lt_of_le_of_lt (Nat.zero_le _) hlong)
        obtain ⟨v, e', he⟩ := drain_unopened servers first rest ho
        exact (hok e' (congrArg (·.standing) he)).elim
      | ok q =>
        obtain ⟨hcalls, c, hc, hlog', hlen⟩ := (hdrains ho).suspended token hd
        have := hbound c hc
        rw [hlog'] at this
        rw [List.nil_append] at hlen
        omega

end Site

namespace ThreePartitions

/-- A scan of the partitions that knows rows by their keys alone. -/
def keyed : Errand :=
  { errand with
    plan := ⟨0, { errand.plan.plan with
      root := .receive 0 ⟨.allPartitions, [{ field := "k" }], ["k"]⟩ }⟩ }

end ThreePartitions

open ThreePartitions in
/-- Of the two rows of one key, which two partitions have, the second one is dropped and counted. -/
theorem Site.drain_distinct_threePartitions :
    let d := site.drain servers keyed calls none
    d.standing = .complete ∧
      d.rows = firsts ["k"] [] (site.drain servers errand calls none).rows ∧
      d.rows = [row 1 "two", row 2 "two", row 3 "five"] ∧
      d.site.client.metrics.duplicatesDropped = 1 := by
  have hplain : (site.drain servers errand calls none).standing = .complete := by
    cbv
  have hkeyed : (site.drain servers keyed calls none).standing = .complete := by
    cbv
  have hsorted : ∀ p ∈ partitions, SortedRows [{ field := "k" }] p.2 := by
    simp only [partitions, List.forall_mem_cons, SortedRows]
    decide
  have hserved : HandsOut servers site.client.config site.log
      ⟨.allPartitions, [{ field := "k" }], ["k"]⟩ :=
    fun _ _ => ⟨by decide, partitions, 5, by decide, hsorted, discovering _ _ _⟩
  obtain ⟨hrows, hdrops⟩ := (drain_distinct servers site site keyed errand calls rfl
    (List.cons_ne_nil _ _) rfl rfl rfl hserved hplain).1 calls hkeyed
  unfold Client.CountsDrops at hdrops
  refine ⟨hkeyed, hrows, ?_, ?_⟩
  · cbv
  · rw [hdrops]
    cbv

end ShardQuery
