import ShardQuery.Proofs.Merge.Lines

/-!
What a merge owes its caller. Taking a row from the line that comes first, dropping a line without
rows and taking in a page each keep the account.
-/

namespace ShardQuery

/-- What a merge has to bring about, and from whom. -/
structure Merge where
  servers : Servers
  /-- The limits that requests may have. -/
  limits : Nat → Prop
  specs : List SortSpec
  /-- How many answers the servers give at most in all. -/
  answers : Nat
  /-- The rows to be handed on in all. -/
  goal : List Value

/-- The account of a merge: the requests answered, the rows handed on and the lines, by their
ids. -/
structure Merge.Due (m : Merge) (log : List FetchRequest) (rows : List Value) (lines : List Line) :
    Prop where
  ids : (lines.map (·.feed.id)).Pairwise (· < ·)
  sound : ∀ l ∈ lines, l.Sound m.specs
  sorted : ∀ s ∈ Source.inOrder (lines.flatMap (·.opened)), SortedRows m.specs s.rows
  serving : ∃ pages, pages + log.length = m.answers ∧
    Serving m.servers m.limits pages log (lines.flatMap (·.supplies))
  goal : m.goal = rows ++ sortRows m.specs
    (lines.flatMap (·.rows) ++ (Source.inOrder (lines.flatMap (·.opened))).flatMap (·.rows))

/-- A line that comes before the other lines. -/
def Line.First (specs : List SortSpec) (l : Line) (lines : List Line) : Prop :=
  ∀ k ∈ lines, (l.feed.compare specs k.feed).isLE

namespace Merge.Due
variable {m : Merge} {log : List FetchRequest} {rows : List Value} {before after lines : List Line}
  {l : Line}

theorem ids_lt (h : m.Due log rows (before ++ l :: after)) :
    ∀ k ∈ before, k.feed.id < l.feed.id := by
  have := h.ids
  rw [List.map_append, List.map_cons] at this
  intro k hk
  exact (List.pairwise_append.1 this).2.2 _ (List.mem_map_of_mem hk) _ (List.mem_cons_self ..)

/-- Lines in front of the first one, which have lower ids, have been begun. -/
theorem opened_before (h : m.Due log rows (before ++ l :: after))
    (hf : l.First m.specs (before ++ l :: after)) (hr : l.feed.rows = []) :
    before.flatMap (·.opened) = [] := by
  apply List.flatMap_eq_nil_iff.2
  intro k hk
  have hm : k ∈ before ++ l :: after := List.mem_append_left _ hk
  refine (h.sound k hm).opened_of_started ?_
  by_contra hs
  have hle := Feed.isLE_of_empty hr ((h.sound k hm).unstarted (Bool.not_eq_true _ ▸ hs)) (hf k hm)
  have := h.ids_lt k hk
  omega

/-- If the first line has a row, all have been begun. -/
theorem opened_of_row (h : m.Due log rows lines) (hf : l.First m.specs lines) {row : Value}
    {rest : List Value} (hr : l.feed.rows = row :: rest) : lines.flatMap (·.opened) = [] := by
  apply List.flatMap_eq_nil_iff.2
  intro k hk
  have hs := h.sound k hk
  exact hs.opened_of_started (hs.started_of_rows (Feed.rows_ne_nil hr (hf k hk)))

theorem row_before {row other : Value} {rest : List Value}
    (h : m.Due log rows lines) (hf : l.First m.specs lines) (hr : l.feed.rows = row :: rest)
    {k : Line} (hk : k ∈ lines) (ho : other ∈ k.rows) :
    rowLE m.specs row other ∧ (k.feed.id < l.feed.id → compareRows m.specs row other = .lt) := by
  obtain ⟨first, others, hfirst⟩ := List.exists_cons_of_ne_nil (Feed.rows_ne_nil hr (hf k hk))
  obtain ⟨hle, hlt⟩ := Feed.head_before hr hfirst (hf k hk)
  have hs := (h.sound k hk).sorted
  rw [Line.rows, hfirst, List.cons_append] at ho hs
  rcases List.mem_cons.1 ho with rfl | ho
  · exact ⟨hle, hlt⟩
  · have hrest := (List.pairwise_cons.1 hs).1 other ho
    exact ⟨Std.TransCmp.isLE_trans hle hrest,
      fun hi => Std.TransCmp.lt_of_lt_of_isLE (hlt hi) hrest⟩

/-- The first row of the first line is the next row of the merge. -/
theorem pop (h : m.Due log rows (before ++ l :: after))
    (hf : l.First m.specs (before ++ l :: after)) {row : Value} {rest : List Value}
    (hr : l.feed.rows = row :: rest) :
    m.Due log (rows ++ [row]) (before ++ l.pop row rest :: after) := by
  have hl : l ∈ before ++ l :: after := List.mem_append_right _ (List.mem_cons_self ..)
  have hrows : l.rows = row :: (l.pop row rest).rows := by
    rw [Line.rows, hr]
    rfl
  have hopened : (before ++ l.pop row rest :: after).flatMap (·.opened) =
      (before ++ l :: after).flatMap (·.opened) := by
    simp only [List.flatMap_append, List.flatMap_cons]
    rfl
  have hsupplies : (before ++ l.pop row rest :: after).flatMap (·.supplies) =
      (before ++ l :: after).flatMap (·.supplies) := by
    simp only [List.flatMap_append, List.flatMap_cons]
    rfl
  refine ⟨?_, fun k hk => ?_, hopened ▸ h.sorted, hsupplies ▸ h.serving, ?_⟩
  · have := h.ids
    rwa [List.map_append, List.map_cons] at this ⊢
  · rcases List.mem_append.1 hk with hk | hk
    · exact h.sound k (List.mem_append_left _ hk)
    · rcases List.mem_cons.1 hk with rfl | hk
      · exact (h.sound l hl).pop hr
      · exact h.sound k (List.mem_append_right _ (List.mem_cons_of_mem _ hk))
  · have hg := h.goal
    rw [hopened, h.opened_of_row hf hr] at *
    simp only [Source.inOrder, List.flatMap_nil, List.append_nil, List.flatMap_append,
      List.flatMap_cons, hrows, List.cons_append] at hg ⊢
    rw [hg, sortRows_least, List.append_assoc, List.singleton_append]
    · intro y hy
      obtain ⟨k, hk, hy⟩ := List.mem_flatMap.1 hy
      exact (h.row_before hf hr (List.mem_append_left _ hk) hy).2 (h.ids_lt k hk)
    · intro y hy
      rcases List.mem_append.1 hy with hy | hy
      · exact (h.row_before hf hr hl (hrows ▸ List.mem_cons_of_mem _ hy)).1
      · obtain ⟨k, hk, hy⟩ := List.mem_flatMap.1 hy
        exact (h.row_before hf hr (List.mem_append_right _ (List.mem_cons_of_mem _ hk)) hy).1

/-- A feed without rows of which the servers have no more makes no difference. -/
theorem drop (h : m.Due log rows (before ++ l :: after)) (he : l.feed.isExhausted = true) :
    m.Due log rows (before ++ after) := by
  have hl := h.sound l (List.mem_append_right _ (List.mem_cons_self ..))
  have hm : l.feed.started = true := by
    simp only [Feed.isExhausted, Feed.hasRemote] at he
    revert he
    cases l.feed.started <;> simp
  have hopened := hl.opened_of_started hm
  obtain ⟨hids, hsound, hsorted, hserving, hgoal⟩ := h
  simp only [List.flatMap_append, List.flatMap_cons, hopened, Line.supplies_of_exhausted he,
    hl.rows_of_exhausted he, List.nil_append] at hsorted hserving hgoal
  refine ⟨?_, fun k hk => hsound k ?_, ?_, ?_, ?_⟩
  · rw [List.map_append, List.map_cons] at hids
    rw [List.map_append]
    exact hids.sublist (.append_left (List.sublist_cons_self ..) _)
  · rcases List.mem_append.1 hk with hk | hk
    · exact List.mem_append_left _ hk
    · exact List.mem_append_right _ (List.mem_cons_of_mem _ hk)
  · simpa only [List.flatMap_append] using hsorted
  · simpa only [List.flatMap_append] using hserving
  · simpa only [List.flatMap_append] using hgoal

/-- What the servers answer for a line is its next page. -/
theorem page (h : m.Due log rows (before ++ l :: after)) (hm : l.feed.hasRemote = true)
    {limit : Nat} {batch : Batch} (hl : m.limits limit)
    (hb : m.servers log (l.feed.request limit) = .ok batch) :
    l.supply.Page batch ∧ ∃ pages, pages + (log.length + 1) = m.answers ∧
      Serving m.servers m.limits pages (l.feed.request limit :: log)
        (l.supply.rest batch ++ (before ++ after).flatMap (·.supplies) ++
          l.announced.map .ofScan) := by
  obtain ⟨pages, hpages, hserving⟩ := h.serving
  have hperm : ((before ++ l :: after).flatMap (·.supplies)).Perm
      (l.supply :: (before ++ after).flatMap (·.supplies)) := by
    have hs : l.supplies = [l.supply] := by simp [Line.supplies, hm]
    simp only [List.flatMap_append, List.flatMap_cons, hs]
    exact List.perm_middle
  cases pages with
  | zero =>
    rw [Serving] at hserving
    rw [hserving] at hperm
    cases hperm.length_eq
  | succ n =>
    obtain ⟨hpage, hrest⟩ := hserving _ _ limit batch hperm hl hb
    exact ⟨hpage, n, by omega, hrest⟩

/-- A page for the first line moves rows from the servers to the feed, and what it announces joins
behind all lines. -/
theorem stage (h : m.Due log rows (before ++ l :: after))
    (hf : l.First m.specs (before ++ l :: after)) (hr : l.feed.rows = [])
    (hm : l.feed.hasRemote = true) {limit : Nat} {batch : Batch} (hl : m.limits limit)
    (hb : m.servers log (l.feed.request limit) = .ok batch) {ids : List Int}
    (hlen : ids.length = l.announced.length)
    (hids : ((before ++ l.stage batch :: after ++ Line.ofScans ids l.announced).map
      (·.feed.id)).Pairwise (· < ·)) :
    m.Due (l.feed.request limit :: log) rows
      (before ++ l.stage batch :: after ++ Line.ofScans ids l.announced) := by
  obtain ⟨hpage, pages, hpages, hserving⟩ := h.page hm hl hb
  have hbefore := h.opened_before hf hr
  have hsound := h.sound l (List.mem_append_right _ (List.mem_cons_self ..))
  have hold : (before ++ l :: after).flatMap (·.opened) = l.opened ++ after.flatMap (·.opened) := by
    rw [List.flatMap_append, hbefore, List.nil_append, List.flatMap_cons]
  have hnew : (before ++ l.stage batch :: after ++ Line.ofScans ids l.announced).flatMap
      (·.opened) = after.flatMap (·.opened) ++ l.opened.flatMap (·.opened) := by
    rw [List.flatMap_append, List.flatMap_append, hbefore, List.flatMap_cons,
      Line.opened_ofScans hlen]
    rfl
  have horder : Source.inOrder ((before ++ l :: after).flatMap (·.opened)) =
      l.opened ++ Source.inOrder ((before ++ l.stage batch :: after ++
        Line.ofScans ids l.announced).flatMap (·.opened)) := by
    rw [hold, hnew, Source.inOrder_append]
  refine ⟨hids, fun k hk => ?_, fun s hs => h.sorted s ?_, ⟨pages, hpages, hserving.perm ?_⟩, ?_⟩
  · rcases List.mem_append.1 hk with hk | hk
    · rcases List.mem_append.1 hk with hk | hk
      · exact h.sound k (List.mem_append_left _ hk)
      · rcases List.mem_cons.1 hk with rfl | hk
        · exact hsound.stage hr hpage
        · exact h.sound k (List.mem_append_right _ (List.mem_cons_of_mem _ hk))
    · refine Line.sound_ofScans (fun s hs => h.sorted s ?_) k hk
      rw [horder]
      exact List.mem_append_left _ hs
  · rw [horder]
    exact List.mem_append_right _ hs
  · have hsupplies : (before ++ l.stage batch :: after ++ Line.ofScans ids l.announced).flatMap
        (·.supplies) = before.flatMap (·.supplies) ++ (l.supply.rest batch ++
          after.flatMap (·.supplies)) ++ l.announced.map .ofScan := by
      rw [List.flatMap_append, Line.supplies_ofScans hlen, List.flatMap_append, List.flatMap_cons,
        Line.supplies_stage]
    rw [hsupplies, List.flatMap_append, ← List.append_assoc, ← List.append_assoc]
    exact (List.perm_append_comm.append_right _).append_right _
  · have hrows : (before ++ l.stage batch :: after ++ Line.ofScans ids l.announced).flatMap
        (·.rows) = (before ++ l :: after).flatMap (·.rows) ++ l.opened.flatMap (·.rows) := by
      rw [List.flatMap_append, Line.rows_ofScans hlen, List.flatMap_append, List.flatMap_append,
        List.flatMap_cons, List.flatMap_cons, Line.rows_stage hr hpage.rows]
      rfl
    have hflat : (Source.inOrder ((before ++ l :: after).flatMap (·.opened))).flatMap (·.rows) =
        l.opened.flatMap (·.rows) ++ (Source.inOrder ((before ++ l.stage batch :: after ++
          Line.ofScans ids l.announced).flatMap (·.opened))).flatMap (·.rows) := by
      rw [horder, List.flatMap_append]
    rw [h.goal, hflat, hrows]
    exact congrArg (rows ++ sortRows m.specs ·) (List.append_assoc ..).symm

end Merge.Due
end ShardQuery
