import ShardQuery.Proofs.Merge.Due
import ShardQuery.Proofs.Merge.Heap
import ShardQuery.Proofs.Session.Scanning

/-!
The steps of a merging scan are the entries of its account: the feed on top of the queue is the
first line, and every step takes from it, drops it or asks for it.
-/

namespace ShardQuery.Scan

/-- The queue has the feeds of some lines. -/
structure Queued (s : Scan) (lines : List Line) : Prop where
  ordered : s.queue.Ordered (Feed.compare s.specs)
  feeds : s.queue.toList.Perm (lines.map (·.feed))

/-- Virtual scans get ids above those of some lines. -/
def Above (s : Scan) (lines : List Line) : Prop :=
  ∀ id, s.nextVirtualId = some id → ∀ l ∈ lines, l.feed.id < id

theorem lt_of_idAfter {id next : Int} (h : idAfter id = some next) : id < next := by
  obtain ⟨rfl, -⟩ := idAfter_eq_some_iff.1 h
  omega

namespace Queued
variable {s : Scan} {before after lines : List Line} {l : Line}

/-- What is popped is the feed of the first line. -/
theorem pop {top : Feed} {queue : Heap Feed} (h : s.Queued lines)
    (hp : s.queue.pop? (Feed.compare s.specs) = some (top, queue)) :
    ∃ before l after, lines = before ++ l :: after ∧ l.feed = top ∧ l.First s.specs lines ∧
      Queued { s with queue } (before ++ after) := by
  have hperm := (Heap.pop?_perm hp).symm.trans h.feeds
  obtain ⟨l, hl, rfl⟩ := List.mem_map.1 (hperm.subset (List.mem_cons_self ..))
  obtain ⟨before, after, rfl⟩ := List.append_of_mem hl
  refine ⟨before, l, after, rfl, rfl, fun k hk => ?_, Heap.pop?_ordered h.ordered hp, ?_⟩
  · exact Heap.pop?_isLE h.ordered hp _ (h.feeds.symm.subset (List.mem_map_of_mem hk))
  · rw [List.map_append, List.map_cons] at hperm
    rw [List.map_append]
    exact (hperm.trans List.perm_middle).cons_inv

theorem enqueue (h : s.Queued (before ++ after)) :
    (s.enqueue l.feed).Queued (before ++ l :: after) := by
  refine ⟨Heap.push_ordered _ h.ordered, ?_⟩
  rw [List.map_append, List.map_cons]
  refine (Heap.push_perm ..).trans ((h.feeds.cons _).trans ?_)
  rw [List.map_append]
  exact List.perm_middle.symm

/-- Virtual scans join behind all lines, in the order in which they were announced. -/
theorem addVirtualScans {announced : List (VirtualScan × Source)} {c d : Control} {t : Scan}
    (h : s.Queued lines) (hids : (lines.map (·.feed.id)).Pairwise (· < ·))
    (hs : announced ≠ [] → s.Above lines)
    (ha : s.addVirtualScans c (announced.map Prod.fst) = (none, t, d)) :
    ∃ ids : List Int, ids.length = announced.length ∧
      t = { s with queue := t.queue, nextVirtualId := t.nextVirtualId } ∧
      t.Queued (lines ++ Line.ofScans ids announced) ∧
      ((lines ++ Line.ofScans ids announced).map (·.feed.id)).Pairwise (· < ·) ∧
      (s.Above lines → t.Above (lines ++ Line.ofScans ids announced)) := by
  induction announced generalizing s c lines with
  | nil =>
    cases ha
    exact ⟨[], rfl, rfl, by simpa [Line.ofScans] using h, by simpa [Line.ofScans] using hids,
      by simp [Line.ofScans]⟩
  | cons a rest ih =>
    rw [List.map_cons, Scan.addVirtualScans] at ha
    cases hn : s.nextVirtualId with
    | none =>
      rw [hn] at ha
      cases ha
    | some id =>
      rw [hn] at ha
      have habove := hs (List.cons_ne_nil a rest) id hn
      have hq : Queued { s.enqueue (.ofVirtualScan id a.1) with nextVirtualId := idAfter id }
          (lines ++ [Line.ofScan id a]) := by
        have hq := enqueue (l := Line.ofScan id a) ((List.append_nil lines).symm ▸ h)
        exact ⟨hq.ordered, hq.feeds⟩
      have habove' : Above { s.enqueue (.ofVirtualScan id a.1) with nextVirtualId := idAfter id }
          (lines ++ [Line.ofScan id a]) := by
        intro i hi k hk
        have hlt : id < i := lt_of_idAfter hi
        rcases List.mem_append.1 hk with hk | hk
        · exact (habove k hk).trans hlt
        · obtain rfl := List.mem_singleton.1 hk
          exact hlt
      have hids' : ((lines ++ [Line.ofScan id a]).map (·.feed.id)).Pairwise (· < ·) := by
        rw [List.map_append, List.pairwise_append]
        refine ⟨hids, List.pairwise_singleton _ _, fun x hx y hy => ?_⟩
        obtain ⟨k, hk, rfl⟩ := List.mem_map.1 hx
        obtain rfl : y = id := by simpa [Line.ofScan, Feed.ofVirtualScan] using hy
        exact habove k hk
      obtain ⟨ids, hlen, ht, hqueued, hpair, hlast⟩ := ih hq hids' (fun _ => habove') ha
      have hlines : lines ++ [Line.ofScan id a] ++ Line.ofScans ids rest =
          lines ++ Line.ofScans (id :: ids) (a :: rest) := by
        simp [Line.ofScans]
      rw [hlines] at hqueued hpair hlast
      refine ⟨id :: ids, congrArg (· + 1) hlen, ?_, hqueued, hpair, fun _ => hlast habove'⟩
      rw [ht]
      rfl

end Queued

/-- What no step of a merge changes. -/
structure Serves (m : Merge) (reg : Nat) (distribution : Distribution) (s : Scan) : Prop where
  reg : s.reg = reg
  distribution : s.distribution = distribution
  specs : s.specs = m.specs
  duplicates : s.duplicates = none

/-- A merge in progress, with its account. -/
structure Merging (m : Merge) (reg : Nat) (distribution : Distribution) (s : Scan)
    (log : List FetchRequest) (rows : List Value) (lines : List Line) : Prop where
  serves : s.Serves m reg distribution
  phase : s.phase = .merging
  queued : s.Queued lines
  above : lines.flatMap (·.opened) ≠ [] → s.Above lines
  due : m.Due log rows lines

/-- A merge in progress or at its end. -/
def Merges (m : Merge) (reg : Nat) (distribution : Distribution) : ScanInvariant :=
  fun s log rows => (∃ lines, s.Merging m reg distribution log rows lines) ∨
    s.phase = .done ∧ rows = m.goal ∧ log.length ≤ m.answers

theorem Merges.bound {m : Merge} {reg : Nat} {distribution : Distribution} {s : Scan}
    {log : List FetchRequest} {rows : List Value} (h : s.Merges m reg distribution log rows) :
    log.length ≤ m.answers ∧ rows.length ≤ m.goal.length := by
  rcases h with ⟨lines, h⟩ | ⟨-, rfl, hl⟩
  · obtain ⟨pages, hp, -⟩ := h.due.serving
    refine ⟨by omega, ?_⟩
    rw [h.due.goal, List.length_append]
    omega
  · exact ⟨hl, le_refl _⟩

theorem yieldRow_of_plain {s : Scan} (h : s.duplicates = none) (row : Value) (c : Control) :
    s.yieldRow row c = ⟨.row, s, c.setReg s.reg row⟩ := by
  simp only [yieldRow, h]

theorem reg_setReg {c : Control} {r : Nat} (h : r < c.registers.length) (v : Value) :
    (c.setReg r v).reg r = v := by
  simp [Control.reg, Control.setReg, readRegister, h]

namespace Merging
variable {m : Merge} {reg : Nat} {distribution : Distribution} {s : Scan}
  {log : List FetchRequest} {rows : List Value} {before after lines : List Line} {l : Line}
  {c : Control} {queue : Heap Feed}

/-- Other lines with the same ids, and no more to be announced. -/
theorem above_of {lines lines' : List Line} (h : s.Merging m reg distribution log rows lines)
    (hopened : lines.flatMap (·.opened) = [] → lines'.flatMap (·.opened) = [])
    (hids : ∀ k ∈ lines', ∃ j ∈ lines, j.feed.id = k.feed.id)
    (hn : lines'.flatMap (·.opened) ≠ []) : s.Above lines' := by
  intro id hid k hk
  obtain ⟨j, hj, hjk⟩ := hids k hk
  exact hjk ▸ h.above (fun ho => hn (hopened ho)) id hid j hj

theorem ids_of_replace {k' : Line} (hk : k'.feed.id = l.feed.id) :
    ∀ k ∈ before ++ k' :: after, ∃ j ∈ before ++ l :: after, j.feed.id = k.feed.id := by
  intro k hm
  rcases List.mem_append.1 hm with hm | hm
  · exact ⟨k, List.mem_append_left _ hm, rfl⟩
  · rcases List.mem_cons.1 hm with rfl | hm
    · exact ⟨l, List.mem_append_right _ (List.mem_cons_self ..), hk.symm⟩
    · exact ⟨k, List.mem_append_right _ (List.mem_cons_of_mem _ hm), rfl⟩

/-- A line that has nothing left leaves the merge. -/
theorem drop (h : s.Merging m reg distribution log rows (before ++ l :: after))
    (hq : Queued { s with queue } (before ++ after)) (he : l.feed.isExhausted = true) :
    Merging m reg distribution { s with queue } log rows (before ++ after) := by
  refine ⟨⟨h.serves.1, h.serves.2, h.serves.3, h.serves.4⟩, h.phase, hq,
    h.above_of (fun ho => ?_) (fun k hk => ⟨k, ?_, rfl⟩), h.due.drop he⟩
  · simp only [List.flatMap_append, List.flatMap_cons, List.append_eq_nil_iff] at ho ⊢
    exact ⟨ho.1, ho.2.2⟩
  · rcases List.mem_append.1 hk with hk | hk
    · exact List.mem_append_left _ hk
    · exact List.mem_append_right _ (List.mem_cons_of_mem _ hk)

/-- The first line's row is handed on, and the line stays if more can come from it. -/
theorem yield (h : s.Merging m reg distribution log rows (before ++ l :: after))
    (hf : l.First m.specs (before ++ l :: after))
    (hq : Queued { s with queue } (before ++ after)) {row : Value} {rest : List Value}
    (hr : l.feed.rows = row :: rest) :
    ∃ lines, Merging m reg distribution
      (if (l.pop row rest).feed.isExhausted then { s with queue }
        else enqueue { s with queue } (l.pop row rest).feed) log (rows ++ [row]) lines := by
  have hs : Serves m reg distribution (enqueue { s with queue } (l.pop row rest).feed) :=
    ⟨h.serves.1, h.serves.2, h.serves.3, h.serves.4⟩
  have hopened : (before ++ l.pop row rest :: after).flatMap (·.opened) =
      (before ++ l :: after).flatMap (·.opened) := by
    simp only [List.flatMap_append, List.flatMap_cons]
    rfl
  have hpopped : Merging m reg distribution (enqueue { s with queue } (l.pop row rest).feed) log
      (rows ++ [row]) (before ++ l.pop row rest :: after) :=
    ⟨hs, h.phase, hq.enqueue, h.above_of (fun ho => hopened.trans ho) (ids_of_replace rfl),
      h.due.pop hf hr⟩
  split
  · rename_i he
    exact ⟨_, hpopped.drop hq he⟩
  · exact ⟨_, hpopped⟩

/-- A page goes to the line that it was asked for, and what it announces joins the merge. -/
theorem deliver {t : Scan} {d e : Control} {limit : Nat} {batch : Batch}
    (h : s.Merging m reg distribution log rows (before ++ l :: after))
    (hf : l.First m.specs (before ++ l :: after))
    (hp : s.queue.pop? (Feed.compare s.specs) = some (l.feed, queue))
    (hq : Queued { s with queue } (before ++ after)) (hr : l.feed.rows = [])
    (hm : l.feed.hasRemote = true) (hl : m.limits limit)
    (hb : m.servers log (l.feed.request limit) = .ok batch)
    (hd : s.deliver d batch = (none, t, e)) :
    ∃ lines, t.Merging m reg distribution (l.feed.request limit :: log) rows lines := by
  obtain ⟨hpage, -⟩ := h.due.page hm hl hb
  have hstage : s.deliver d batch = s.stageMerge d batch := by
    unfold Scan.deliver
    rw [h.phase]
  rw [hstage, stageMerge, hp] at hd
  simp only at hd
  split at hd
  · cases hd
  · rename_i c' _
    rw [hpage.announced] at hd
    have hq' : (enqueue { s with queue } (l.stage batch).feed).Queued _ := hq.enqueue
    have hids : ((before ++ l.stage batch :: after).map (·.feed.id)).Pairwise (· < ·) := by
      have := h.due.ids
      rwa [List.map_append, List.map_cons] at this ⊢
    have habove (hn : (before ++ l :: after).flatMap (·.opened) ≠ []) :
        s.Above (before ++ l.stage batch :: after) := by
      intro id hid k hk
      have hid' : (l.stage batch).feed.id = l.feed.id := rfl
      obtain ⟨j, hj, hjk⟩ := ids_of_replace hid' k hk
      exact hjk ▸ h.above hn id hid j hj
    obtain ⟨ids, hlen, ht, hqueued, hpair, hlast⟩ := by
      refine Queued.addVirtualScans ?_ hids ?_ hd
      · exact ⟨hq'.ordered, hq'.feeds⟩
      · intro hn
        apply habove
        have hl : l.opened ≠ [] := by
          intro ho
          exact hn (List.map_eq_nil_iff.1 ho)
        simp [hl]
    refine ⟨_, ?_, ?_, hqueued, fun hn => hlast (habove fun ho => hn ?_),
      h.due.stage hf hr hm hl hb hlen hpair⟩
    · rw [ht]
      exact ⟨h.serves.1, h.serves.2, h.serves.3, h.serves.4⟩
    · rw [ht]
      exact h.phase
    · simp only [List.flatMap_append, List.flatMap_cons, List.append_eq_nil_iff] at ho ⊢
      rw [Line.opened_ofScans hlen]
      have hl : l.supply.announced.map Prod.snd = [] := ho.2.1
      exact ⟨⟨ho.1, rfl, ho.2.2⟩, by rw [hl]; rfl⟩

theorem yield_keeps {t : Scan} {row : Value} (n : Nat)
    (h : t.Merging m reg distribution log (rows ++ [row]) lines) (hreg : reg < c.registers.length) :
    Keeps m.servers (Merges m reg distribution) m.goal s c log rows
      (t.yieldRow row (c.release n)) := by
  have hr : ((c.release n).setReg t.reg row).reg t.reg = row :=
    reg_setReg (h.serves.reg ▸ hreg) row
  rw [yieldRow_of_plain h.serves.duplicates]
  refine .row (by simp [Control.setReg, Control.release]) (.inl ⟨lines, ?_⟩)
  rwa [hr]

theorem step (h : s.Merging m reg distribution log rows lines) (hc : c.fetchDone = false)
    (hreg : reg < c.registers.length)
    (hlim : ∀ limit, s.mergeLimit c = .ok limit → m.limits limit) :
    Keeps m.servers (Merges m reg distribution) m.goal s c log rows (s.step c) := by
  have hstep : s.step c = s.stepMerge c := by
    unfold Scan.step
    rw [h.phase]
  rw [hstep, stepMerge]
  cases hp : s.queue.pop? (Feed.compare s.specs) with
  | none =>
    have hnil : lines = [] := by
      have := h.queued.feeds
      rw [Heap.pop?_eq_none.1 hp] at this
      exact List.map_eq_nil_iff.1 this.nil_eq.symm
    subst hnil
    have hg : rows = m.goal := by
      rw [h.due.goal]
      simp [Source.inOrder, sortRows]
    exact .dry (.inr ⟨rfl, hg, (Merges.bound (.inl ⟨_, h⟩)).1⟩) hg
  | some popped =>
    obtain ⟨top, queue⟩ := popped
    obtain ⟨before, l, after, rfl, rfl, hf, hq⟩ := h.queued.pop hp
    rw [h.serves.specs] at hf
    cases hr : l.feed.rows with
    | cons row rest =>
      obtain ⟨lines, hy⟩ := h.yield hf hq hr
      simp only [Feed.pop?, hr]
      exact hy.yield_keeps row.size hreg
    | nil =>
      simp only [Feed.pop?, hr]
      cases hm : l.feed.hasRemote with
      | false =>
        have he : l.feed.isExhausted = true := by simp [Feed.isExhausted, Feed.hasRows, hr, hm]
        exact .more (.inl ⟨_, h.drop hq he⟩)
      | true =>
        simp only [Bool.not_true, Bool.false_eq_true, ↓reduceIte, ask, hc]
        cases hlimit : s.mergeLimit c with
        | error e => exact .fail
        | ok limit =>
          exact .request fun hb hd =>
            .inl (h.deliver hf hp hq hr hm (hlim limit hlimit) hb hd)

end Merging

/-- A merge keeps to its account to the end. -/
theorem Merges.step {m : Merge} {reg : Nat} {distribution : Distribution} {s : Scan} {c : Control}
    {log : List FetchRequest} {rows : List Value} (h : s.Merges m reg distribution log rows)
    (hc : c.fetchDone = false) (hreg : reg < c.registers.length)
    (hlim : s.distribution = distribution → ∀ limit, s.mergeLimit c = .ok limit → m.limits limit) :
    Keeps m.servers (Merges m reg distribution) m.goal s c log rows (s.step c) := by
  rcases h with ⟨lines, h⟩ | ⟨hp, hrows, hl⟩
  · exact h.step hc hreg (hlim h.serves.distribution)
  · simp only [Scan.step, hp]
    exact .dry (.inr ⟨hp, hrows, hl⟩) hrows

end ShardQuery.Scan
