import ShardQuery.Proofs.Merge.Books
import ShardQuery.Proofs.Merge.Merging

/-!
The discovery of the partitions of a sorted scan: batch by batch, until the servers say that all are
found, each partition comes with its first rows and with a key for the others. Then the merge takes
over, with a line for every partition from which there is anything to come.
-/

namespace ShardQuery

/-- A partition when it is reported, and the rows still to come from it. -/
structure Share where
  id : Int
  rows : List Value
  key : Option Bytes
  owed : List Value

namespace Share

/-- The partition as a whole. -/
def whole (s : Share) : Int × List Value := (s.id, s.rows ++ s.owed)

def line (s : Share) : Line := { feed := .ofPartition s.id s.rows s.key, owed := s.owed }

/-- What the servers go on with, if there is a key. -/
def supplies (s : Share) : List Supply :=
  s.key.toList.map fun key =>
    { target := .partition s.id, continuation := some key, rows := s.owed }

/-- A partition that has a key, or none and all its rows. -/
def Whole (s : Share) : Prop := s.key = none → s.owed = []

theorem supplies_line (s : Share) : s.line.supplies = s.supplies := by
  cases hk : s.key <;>
    simp [Line.supplies, Line.supply, line, supplies, Feed.ofPartition, Feed.hasRemote, hk]

theorem sound_line {specs : List SortSpec} {s : Share} (h : s.Whole)
    (hs : SortedRows specs (s.rows ++ s.owed)) : s.line.Sound specs :=
  ⟨hs, nofun, fun _ => rfl,
    fun hm => h (by simpa [line, Feed.ofPartition, Feed.hasRemote] using hm)⟩

end Share

/-- A batch of the discovery phase reports some partitions one after the other. -/
structure Reports (batch : Batch) (info : Phase1Info) (shares : List Share) : Prop where
  partitions : info.partitions = shares.map (·.id)
  counts : info.counts = shares.map fun s => (s.rows.length : Int)
  keys : info.keys = shares.map (·.key)
  rows : batch.rows = shares.flatMap (·.rows)
  whole : ∀ s ∈ shares, s.Whole

/-- The counts of a batch add up to its rows. -/
theorem Reports.sum_counts {batch : Batch} {info : Phase1Info} {shares : List Share}
    (h : Reports batch info shares) : info.counts.sum = batch.rows.length := by
  rw [h.counts, h.rows, List.length_flatMap]
  clear h
  induction shares with
  | nil => rfl
  | cons s rest ih =>
    rw [List.map_cons, List.sum_cons, ih, List.map_cons, List.sum_cons, Int.natCast_add]

/-- How a scan asks for partitions. -/
def discoveryRequest (limit : Nat) (key : Option Bytes) : FetchRequest :=
  { target := .sortPhase1, limit, continuation := key }

/-- The servers have a number of answers to give before every partition that is hidden is reported,
once, and all that was reported is handed out. -/
def Discovering (servers : Servers) (batchLimit : Nat) (limits : Nat → Prop) :
    Nat → List FetchRequest → Option Bytes → List (Int × List Value) → List Supply → Prop
  | 0, _, _, _, _ => False
  | answers + 1, log, key, hidden, supplies =>
    ∀ (batch : Batch) (info : Phase1Info),
      servers log (discoveryRequest batchLimit key) = .ok batch → batch.phase1 = some info →
      ∃ shares rest, Reports batch info shares ∧ hidden.Perm (shares.map (·.whole) ++ rest) ∧
        (info.inPhase1 = true → Discovering servers batchLimit limits answers
          (discoveryRequest batchLimit key :: log) batch.continuation rest
          (supplies ++ shares.flatMap (·.supplies))) ∧
        (info.inPhase1 = false → rest = [] ∧ Serving servers limits answers
          (discoveryRequest batchLimit key :: log) (supplies ++ shares.flatMap (·.supplies)))

/-- The servers have said that all partitions are found. -/
def Discovered (servers : Servers) (log : List FetchRequest) : Prop :=
  ∃ (request : FetchRequest) (earlier : List FetchRequest) (batch : Batch) (info : Phase1Info),
    request :: earlier <:+ log ∧ request.target = .sortPhase1 ∧
    servers earlier request = .ok batch ∧ batch.phase1 = some info ∧ info.inPhase1 = false

theorem Discovered.mono {servers : Servers} {log log' : List FetchRequest}
    (h : Discovered servers log) (hl : log <:+ log') : Discovered servers log' := by
  obtain ⟨request, earlier, batch, info, hs, hrest⟩ := h
  exact ⟨request, earlier, batch, info, hs.trans hl, hrest⟩

namespace Scan

/-- The rows of a batch are cut where the partitions meet. -/
theorem cut_reports (shares : List Share) :
    cut (shares.map (·.id)) (shares.map fun s => (s.rows.length : Int)) (shares.map (·.key))
      (shares.flatMap (·.rows)) = shares.map fun s => (s.id, s.rows, s.key) := by
  induction shares with
  | nil => rfl
  | cons s rest ih =>
    simp only [List.map_cons, List.flatMap_cons, cut, Int.toNat_natCast, List.take_left',
      List.drop_left', ih]

/-- Partitions from which there is nothing to come are left out. -/
theorem partitionFeeds (shares : List Share) :
    (shares.map fun s => (s.id, s.rows, s.key)).filterMap partitionFeed? =
      (shares.map (·.line.feed)).filter (!·.isExhausted) := by
  induction shares with
  | nil => rfl
  | cons s rest ih =>
    obtain ⟨id, rows, key, owed⟩ := s
    simp only [List.map_cons, List.filterMap_cons, List.filter_cons, ih]
    cases rows <;> cases key <;> rfl

theorem foldl_enqueue (feeds : List Feed) {s : Scan}
    (h : s.queue.Ordered (Feed.compare s.specs)) :
    ∃ queue, feeds.foldl enqueue s = { s with queue } ∧ queue.Ordered (Feed.compare s.specs) ∧
      queue.toList.Perm (s.queue.toList ++ feeds) :=
  ⟨_, foldl_enqueue_eq feeds s, Heap.foldl_push_ordered feeds h,
    (Heap.foldl_push_perm feeds s.queue).trans List.perm_append_comm⟩

/-- A permutation of images is the image of a permutation. -/
theorem exists_perm_map {α β : Type} {f : α → β} {xs : List α} {ys : List β}
    (h : ys.Perm (xs.map f)) : ∃ zs : List α, zs.Perm xs ∧ zs.map f = ys := by
  induction ys generalizing xs with
  | nil => exact ⟨[], by rw [List.map_eq_nil_iff.1 h.nil_eq.symm], rfl⟩
  | cons y ys ih =>
    obtain ⟨x, hx, rfl⟩ := List.mem_map.1 (h.subset (List.mem_cons_self ..))
    obtain ⟨before, after, rfl⟩ := List.append_of_mem hx
    rw [List.map_append, List.map_cons] at h
    have hrest : ys.Perm ((before ++ after).map f) := by
      rw [List.map_append]
      exact (h.trans List.perm_middle).cons_inv
    obtain ⟨zs, hz, hy⟩ := ih hrest
    exact ⟨x :: zs, (hz.cons x).trans List.perm_middle.symm, by rw [List.map_cons, hy]⟩

/-- A list without the elements that give nothing gives the same. -/
theorem flatMap_filter {α β : Type} {p : α → Bool} {f : α → List β} {xs : List α}
    (h : ∀ x ∈ xs, p x = false → f x = []) : (xs.filter p).flatMap f = xs.flatMap f := by
  induction xs with
  | nil => rfl
  | cons x xs ih =>
    have hrest := ih fun y hy => h y (List.mem_cons_of_mem _ hy)
    cases hp : p x with
    | true => rw [List.filter_cons_of_pos hp, List.flatMap_cons, List.flatMap_cons, hrest]
    | false =>
      rw [List.filter_cons_of_neg (Bool.not_eq_true _ ▸ hp), List.flatMap_cons, hrest,
        h x (List.mem_cons_self ..) hp, List.nil_append]

/-- What is so of a scan that finds its partitions: no row was handed on, and what was reported is
in the queue unless it is nothing. -/
structure Discovers (m : Merge) (reg batchLimit : Nat) (partitions : List (Int × List Value))
    (s : Scan) (log : List FetchRequest) (rows : List Value) (shares : List Share)
    (hidden : List (Int × List Value)) : Prop where
  serves : s.Serves m reg .allPartitions
  phase : s.phase = .discovering
  rows : rows = []
  ordered : s.queue.Ordered (Feed.compare s.specs)
  feeds : s.queue.toList.Perm ((shares.map (·.line.feed)).filter (!·.isExhausted))
  whole : ∀ s ∈ shares, s.Whole
  found : partitions.Perm (shares.map (·.whole) ++ hidden)
  serving : ∃ answers, answers + log.length = m.answers ∧
    Discovering m.servers batchLimit m.limits answers log s.phase1Continuation hidden
      (shares.flatMap (·.supplies))

section
variable {m : Merge} {reg batchLimit : Nat} {partitions : List (Int × List Value)} {s : Scan}
  {log : List FetchRequest} {shares : List Share}

/-- When all partitions are found, the merge has a line for each from which anything can come, in
the order of their ids. -/
theorem merging_of_found (hserves : s.Serves m reg .allPartitions) (hphase : s.phase = .merging)
    (hordered : s.queue.Ordered (Feed.compare s.specs))
    (hfeeds : s.queue.toList.Perm ((shares.map (·.line.feed)).filter (!·.isExhausted)))
    (hwhole : ∀ s ∈ shares, s.Whole) (hfound : partitions.Perm (shares.map (·.whole)))
    (hids : partitions.Pairwise (·.1 < ·.1)) (hsorted : ∀ p ∈ partitions, SortedRows m.specs p.2)
    (hserving : ∃ pages, pages + log.length = m.answers ∧
      Serving m.servers m.limits pages log (shares.flatMap (·.supplies)))
    (hgoal : m.goal = sortRows m.specs (partitions.flatMap (·.2))) :
    ∃ lines, s.Merging m reg .allPartitions log [] lines := by
  obtain ⟨sorted, hperm, hmap⟩ := exists_perm_map hfound
  have hsound : ∀ l ∈ sorted.map (·.line), l.Sound m.specs := by
    intro l hl
    obtain ⟨share, hshare, rfl⟩ := List.mem_map.1 hl
    refine Share.sound_line (hwhole share (hperm.subset hshare)) (hsorted share.whole ?_)
    rw [← hmap]
    exact List.mem_map_of_mem hshare
  have hexhausted {β : Type} {f : Line → List β} (hf : ∀ l ∈ sorted.map (·.line),
      l.feed.isExhausted = true → f l = []) :
      ((sorted.map (·.line)).filter (!·.feed.isExhausted)).flatMap f =
        sorted.flatMap fun s => f s.line := by
    rw [flatMap_filter fun l hl he => hf l hl (by simpa using he), List.flatMap_map]
  have hopened : ((sorted.map (·.line)).filter (!·.feed.isExhausted)).flatMap (·.opened) = [] := by
    apply List.flatMap_eq_nil_iff.2
    intro l hl
    obtain ⟨share, -, rfl⟩ := List.mem_map.1 (List.mem_filter.1 hl).1
    rfl
  have hrows : ((sorted.map (·.line)).filter (!·.feed.isExhausted)).flatMap (·.rows) =
      partitions.flatMap (·.2) := by
    rw [hexhausted fun l hl he => (hsound l hl).rows_of_exhausted he, ← hmap, List.flatMap_map]
    rfl
  refine ⟨(sorted.map (·.line)).filter (!·.feed.isExhausted), hserves, hphase, ⟨hordered, ?_⟩,
    fun hn => (hn hopened).elim, ?_, fun l hl => hsound l (List.mem_filter.1 hl).1, ?_, ?_, ?_⟩
  · have hmaps : ((sorted.map (·.line)).filter (!·.feed.isExhausted)).map (·.feed) =
        (sorted.map (·.line.feed)).filter (!·.isExhausted) := by
      rw [List.filter_map, List.filter_map, List.map_map]
      rfl
    rw [hmaps]
    exact hfeeds.trans ((hperm.map _).filter _).symm
  · have hall : ((sorted.map (·.line)).map (·.feed.id)).Pairwise (· < ·) := by
      rw [← hmap, List.pairwise_map] at hids
      rw [List.map_map, List.pairwise_map]
      exact hids
    exact hall.sublist (List.filter_sublist.map _)
  · rw [hopened, Source.inOrder]
    simp
  · obtain ⟨pages, hpages, hserving⟩ := hserving
    refine ⟨pages, hpages, hserving.perm ?_⟩
    rw [hexhausted fun l _ he => Line.supplies_of_exhausted he]
    simp only [Share.supplies_line]
    exact hperm.symm.flatMap_right _
  · rw [hgoal, hopened, hrows, Source.inOrder, List.flatMap_nil, List.append_nil, List.nil_append]

/-- A batch that was taken in adds what it reports to the queue. -/
theorem stagePhase1_eq {batch : Batch} {t : Scan} {d e : Control}
    (ho : s.queue.Ordered (Feed.compare s.specs)) (hd : s.stagePhase1 d batch = (none, t, e)) :
    ∃ info, batch.phase1 = some info ∧
      t.phase = (if info.inPhase1 then s.phase else .merging) ∧
      t.phase1Continuation = batch.continuation ∧
      (t.reg, t.distribution, t.specs, t.duplicates) =
        (s.reg, s.distribution, s.specs, s.duplicates) ∧
      t.queue.Ordered (Feed.compare t.specs) ∧
      t.queue.toList.Perm (s.queue.toList ++
        (cut info.partitions info.counts info.keys batch.rows).filterMap partitionFeed?) := by
  unfold stagePhase1 at hd
  split at hd
  · cases hd
  · rename_i info hcheck
    obtain ⟨queue, hq, hqo, hqp⟩ := foldl_enqueue
      ((cut info.partitions info.counts info.keys batch.rows).filterMap partitionFeed?) ho
    refine ⟨info, (reported_of_check hcheck).phase1, ?_⟩
    split at hd
    · cases hd
    · simp only [addPartitions, hq] at hd
      split at hd
      · rename_i hin
        cases hd
        exact ⟨by simp [hin], rfl, rfl, hqo, hqp⟩
      · rename_i hin
        cases hd
        exact ⟨by simp [hin], rfl, rfl, hqo, hqp⟩

/-- A batch reports some of the hidden partitions. If it is the last one, the merge takes over. -/
theorem Discovers.deliver {rows : List Value} {hidden : List (Int × List Value)} {batch : Batch}
    {t : Scan} {d e : Control}
    (h : s.Discovers m reg batchLimit partitions log rows shares hidden)
    (hids : partitions.Pairwise (·.1 < ·.1)) (hsorted : ∀ p ∈ partitions, SortedRows m.specs p.2)
    (hgoal : m.goal = sortRows m.specs (partitions.flatMap (·.2)))
    (hb : m.servers log (discoveryRequest batchLimit s.phase1Continuation) = .ok batch)
    (hd : s.deliver d batch = (none, t, e)) :
    let log' := discoveryRequest batchLimit s.phase1Continuation :: log
    (∃ shares hidden, t.Discovers m reg batchLimit partitions log' rows shares hidden) ∨
      (∃ lines, t.Merging m reg .allPartitions log' rows lines) ∧ Discovered m.servers log' := by
  have hstage : s.deliver d batch = s.stagePhase1 d batch := by
    unfold Scan.deliver
    rw [h.phase]
  rw [hstage] at hd
  obtain ⟨info, hinfo, hphase, hkey, hfixed, ho, hq⟩ := stagePhase1_eq h.ordered hd
  obtain ⟨answers, hanswers, hserving⟩ := h.serving
  cases answers with
  | zero => exact hserving.elim
  | succ n =>
    obtain ⟨more, rest, hreports, hhidden, hgoes, hends⟩ := hserving batch info hb hinfo
    have hserves : t.Serves m reg .allPartitions := by
      simp only [Prod.mk.injEq] at hfixed
      obtain ⟨h1, h2, h3, h4⟩ := hfixed
      exact ⟨h1.trans h.serves.reg, h2.trans h.serves.distribution, h3.trans h.serves.specs,
        h4.trans h.serves.duplicates⟩
    have hfeeds : t.queue.toList.Perm
        (((shares ++ more).map (·.line.feed)).filter (!·.isExhausted)) := by
      rw [hreports.partitions, hreports.counts, hreports.keys, hreports.rows, cut_reports,
        partitionFeeds] at hq
      rw [List.map_append, List.filter_append]
      exact hq.trans (h.feeds.append_right _)
    have hwhole : ∀ s ∈ shares ++ more, s.Whole := by
      intro s hs
      rcases List.mem_append.1 hs with hs | hs
      · exact h.whole s hs
      · exact hreports.whole s hs
    have hfound : partitions.Perm ((shares ++ more).map (·.whole) ++ rest) := by
      rw [List.map_append, List.append_assoc]
      exact h.found.trans (hhidden.append_left _)
    have hlen : n + (log.length + 1) = m.answers := by omega
    rw [← List.flatMap_append] at hgoes hends
    cases hin : info.inPhase1 with
    | true =>
      rw [hin, if_pos rfl] at hphase
      refine .inl ⟨shares ++ more, rest, hserves, hphase.trans h.phase, h.rows, ho, hfeeds, hwhole,
        hfound, n, hlen, ?_⟩
      rw [hkey]
      exact hgoes hin
    | false =>
      rw [hin, if_neg Bool.false_ne_true] at hphase
      obtain ⟨rfl, hserving⟩ := hends hin
      rw [List.append_nil] at hfound
      refine .inr ⟨?_, _, _, batch, info, List.suffix_refl _, rfl, hb, hinfo, hin⟩
      rw [h.rows]
      exact merging_of_found hserves hphase ho hfeeds hwhole hfound hids hsorted
        ⟨n, hlen, hserving⟩ hgoal

end
end Scan
end ShardQuery
