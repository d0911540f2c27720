import ShardQuery.Proofs.Merge.Feed
import ShardQuery.Proofs.Merge.Supply

/-!
The books of a merge: each feed beside what the servers still hold for it. The rows that are still
to be handed on are the sorted rows of all lines, before every step and after it.
-/

namespace ShardQuery

/-- A feed, the rows still to come for it, and the virtual scans to come with its first page. -/
structure Line where
  feed : Feed
  owed : List Value
  announced : List (VirtualScan × Source) := []

namespace Line

/-- All rows that are still to be handed on from this feed. -/
def rows (l : Line) : List Value := l.feed.rows ++ l.owed

def opened (l : Line) : List Source := l.announced.map Prod.snd

/-- The feed as the servers see it. -/
def supply (l : Line) : Supply :=
  { target := l.feed.target
    continuation := l.feed.continuation
    virtualScan := if l.feed.started then none else l.feed.virtualScan
    rows := l.owed
    announced := l.announced }

/-- Nothing, if the servers are done with the feed. -/
def supplies (l : Line) : List Supply := if l.feed.hasRemote then [l.supply] else []

def ofShard (id : Int) (s : Source) : Line :=
  { feed := { id, target := .shard id }, owed := s.rows, announced := s.announced }

def ofScan (id : Int) (a : VirtualScan × Source) : Line :=
  { feed := .ofVirtualScan id a.1, owed := a.2.rows, announced := a.2.announced }

/-- A line without its first row. -/
def pop (l : Line) (row : Value) (rest : List Value) : Line :=
  { l with feed := { l.feed with rows := rest, memory := l.feed.memory - row.size } }

/-- A line after a page. -/
def stage (l : Line) (batch : Batch) : Line :=
  { feed := l.feed.stage batch.rows batch.continuation
    owed := l.owed.drop batch.rows.length }

/-- What is so of every line: its rows are in order, and what the feed knows of the servers is
true. -/
structure Sound (specs : List SortSpec) (l : Line) : Prop where
  sorted : SortedRows specs l.rows
  unstarted : l.feed.started = false → l.feed.rows = []
  started : l.feed.started = true → l.announced = []
  ended : l.feed.hasRemote = false → l.owed = []

variable {specs : List SortSpec} {l : Line}

theorem Sound.rows_of_exhausted (h : l.Sound specs) (he : l.feed.isExhausted = true) :
    l.rows = [] := by
  obtain ⟨hr, hm⟩ : l.feed.rows = [] ∧ l.feed.hasRemote = false := by
    simpa [Feed.isExhausted, Feed.hasRows] using he
  rw [rows, hr, h.ended hm]
  rfl

theorem Sound.started_of_rows (h : l.Sound specs) (hr : l.feed.rows ≠ []) :
    l.feed.started = true := by
  by_contra hs
  exact hr (h.unstarted (Bool.not_eq_true _ ▸ hs))

theorem Sound.opened_of_started (h : l.Sound specs) (hs : l.feed.started = true) :
    l.opened = [] := by
  rw [opened, h.started hs]
  rfl

theorem supplies_of_exhausted (he : l.feed.isExhausted = true) : l.supplies = [] := by
  have hm : l.feed.hasRemote = false := by simpa using (Bool.and_eq_true_iff.1 he).2
  simp [supplies, hm]

theorem Sound.pop {row : Value} {rest : List Value} (h : l.Sound specs)
    (hr : l.feed.rows = row :: rest) : (l.pop row rest).Sound specs := by
  have hs := h.started_of_rows (by simp [hr])
  refine ⟨?_, fun hf => ?_, h.started, h.ended⟩
  · have := h.sorted
    rw [rows, hr] at this
    exact (List.pairwise_cons.1 this).2
  · exact (Bool.false_ne_true (hf.symm.trans hs)).elim

/-- A page takes rows from those that are owed to those that are there. -/
theorem rows_stage {batch : Batch} (hr : l.feed.rows = []) (hp : batch.rows <+: l.owed) :
    (l.stage batch).rows = l.rows := by
  obtain ⟨more, hmore⟩ := hp
  simp [rows, stage, Feed.stage, hr, ← hmore]

theorem Sound.stage {batch : Batch} (h : l.Sound specs) (hr : l.feed.rows = [])
    (hp : l.supply.Page batch) : (l.stage batch).Sound specs := by
  refine ⟨?_, nofun, fun _ => rfl, fun hm => ?_⟩
  · rw [rows_stage hr hp.rows]
    exact h.sorted
  · have hc : batch.continuation = none := by
      simpa [Line.stage, Feed.stage, Feed.hasRemote] using hm
    have hlast : batch.rows = l.owed := hp.last hc
    simp [Line.stage, hlast]

theorem supplies_stage (batch : Batch) : (l.stage batch).supplies = l.supply.rest batch := by
  cases hc : batch.continuation <;>
    simp [supplies, supply, stage, Feed.stage, Feed.hasRemote, Supply.rest, hc]

theorem sound_ofScan {id : Int} {a : VirtualScan × Source} (h : SortedRows specs a.2.rows) :
    (ofScan id a).Sound specs :=
  ⟨h, fun _ => rfl, nofun, nofun⟩

/-- The lines of virtual scans, under ids of their own. -/
def ofScans (ids : List Int) (announced : List (VirtualScan × Source)) : List Line :=
  ids.zipWith ofScan announced

section
variable {ids : List Int} {announced : List (VirtualScan × Source)}

theorem flatMap_ofScans {β : Type} {f : Line → List β} {g : VirtualScan × Source → List β}
    (hfg : ∀ id a, f (ofScan id a) = g a) (h : ids.length = announced.length) :
    (ofScans ids announced).flatMap f = announced.flatMap g := by
  induction ids generalizing announced with
  | nil =>
    rw [List.length_eq_zero_iff.1 h.symm]
    rfl
  | cons id ids ih =>
    obtain ⟨a, rest, rfl⟩ := List.exists_cons_of_length_eq_add_one h.symm
    have hl : ids.length = rest.length := Nat.succ.inj h
    rw [List.flatMap_cons, ← hfg id, ← ih hl]
    rfl

theorem rows_ofScans (h : ids.length = announced.length) :
    (ofScans ids announced).flatMap (·.rows) = (announced.map Prod.snd).flatMap (·.rows) := by
  rw [flatMap_ofScans (g := fun a => a.2.rows) (fun _ _ => rfl) h, List.flatMap_map]

theorem opened_ofScans (h : ids.length = announced.length) :
    (ofScans ids announced).flatMap (·.opened) = (announced.map Prod.snd).flatMap (·.opened) := by
  rw [flatMap_ofScans (g := fun a => a.2.opened) (fun _ _ => rfl) h, List.flatMap_map]

theorem supplies_ofScans (h : ids.length = announced.length) :
    (ofScans ids announced).flatMap (·.supplies) = announced.map .ofScan := by
  rw [flatMap_ofScans (g := fun a => [.ofScan a]) (fun _ _ => rfl) h, List.map_eq_flatMap]

theorem sound_ofScans (h : ∀ source ∈ announced.map Prod.snd, SortedRows specs source.rows) :
    ∀ l ∈ ofScans ids announced, l.Sound specs := by
  intro l hl
  obtain ⟨id, a, ha, rfl⟩ : ∃ id, ∃ a ∈ announced, ofScan id a = l := by
    induction ids generalizing announced with
    | nil => cases hl
    | cons id ids ih =>
      cases announced with
      | nil => cases hl
      | cons a rest =>
        rcases List.mem_cons.1 hl with rfl | hl
        · exact ⟨id, a, List.mem_cons_self .., rfl⟩
        · obtain ⟨i, b, hb, hi⟩ := ih (fun s hs => h s (List.mem_cons_of_mem _ hs)) hl
          exact ⟨i, b, List.mem_cons_of_mem _ hb, hi⟩
  exact sound_ofScan (h a.2 (List.mem_map_of_mem ha))

end

end Line
end ShardQuery
