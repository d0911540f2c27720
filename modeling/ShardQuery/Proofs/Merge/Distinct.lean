import ShardQuery.Proofs.Merge.Books
import ShardQuery.Proofs.Merge.Duplicates

/-!
A scan that drops duplicates beside the scan that it would be without a primary key. Under a budget
that is less by what the keys take up, the other scan takes the same step, but for the row that is
handed on: of that, the first one is a repetition or not.
-/

namespace ShardQuery

namespace DuplicateSet

instance (fields : List String) (before : List Value) (row : Value) :
    Decidable (Repeats fields before row) :=
  inferInstanceAs
    (Decidable (∃ e ∈ before, keyBytes (keyOf fields e) = keyBytes (keyOf fields row)))

/-- The rows that repeat no row before them, neither of their own nor of those that came earlier. -/
def firsts (fields : List String) (earlier : List Value) : List Value → List Value
  | [] => []
  | row :: rest =>
    if Repeats fields earlier row then firsts fields (earlier ++ [row]) rest
    else row :: firsts fields (earlier ++ [row]) rest

variable {fields : List String} {earlier : List Value}

theorem firsts_append (rows more : List Value) : firsts fields earlier (rows ++ more) =
    firsts fields earlier rows ++ firsts fields (earlier ++ rows) more := by
  induction rows generalizing earlier with
  | nil => simp [firsts]
  | cons row rest ih =>
    simp only [List.cons_append, firsts, ih, List.append_assoc]
    split <;> rfl

end DuplicateSet

open DuplicateSet

namespace Control

/-- The control of a call that may still fetch, under a budget that is smaller. -/
def spared (c : Control) (bytes : Nat) : Control :=
  { c with fetchDone := false, ledger := { c.ledger with limit := c.ledger.limit - bytes } }

end Control

namespace Scan
variable {s t : Scan} {c d : Control} {row : Value}

/-- The scan as it would be without a primary key. -/
def unkeyed (s : Scan) : Scan := { s with duplicates := none }

/-- The step of a scan beside the one that it takes without a primary key. -/
inductive Mirrors (s : Scan) (c : Control) : Step Scan → Step Scan → Prop where
  | more {t : Scan} (ht : t.duplicates = s.duplicates) (hr : t.reg = s.reg) :
    Mirrors s c ⟨.more, t.unkeyed, c.spared s.duplicateMemory⟩ ⟨.more, t, c⟩
  | row {t : Scan} {row : Value} (n : Nat) (ht : t.duplicates = s.duplicates) (hr : t.reg = s.reg) :
    Mirrors s c
      ⟨.row, t.unkeyed, ((c.spared s.duplicateMemory).release n).setReg t.reg row⟩
      (t.yieldRow row (c.release n))
  | dry {t : Scan} (ht : t.duplicates = s.duplicates) :
    Mirrors s c ⟨.dry, t.unkeyed, c.spared s.duplicateMemory⟩ ⟨.dry, t, c⟩
  | request {request : FetchRequest} :
    Mirrors s c ⟨.request request, s.unkeyed, c.spared s.duplicateMemory⟩ ⟨.request request, s, c⟩
  | cut {p : Step Scan} (hc : c.fetchDone = true) : Mirrors s c p ⟨.dry, s, c.suspend⟩
  | fail {p : Step Scan} {e : QueryError} : Mirrors s c p ⟨.fail e, s, c⟩

theorem mergeLimit_unkeyed (s : Scan) (c : Control) :
    (s.unkeyed.mergeLimit (c.spared s.duplicateMemory)).toOption = (s.mergeLimit c).toOption := by
  have hm : s.unkeyed.duplicateMemory = 0 := rfl
  unfold mergeLimit
  simp only [hm, Nat.sub_zero]
  cases hd : s.distribution != .allPartitions with
  | true =>
    have hd' : (s.unkeyed.distribution != .allPartitions) = true := hd
    simp only [hd', ↓reduceIte]
    rfl
  | false =>
    have hd' : (s.unkeyed.distribution != .allPartitions) = false := hd
    simp only [hd', Bool.false_eq_true, ↓reduceIte]
    change Except.toOption (if (c.ledger.limit - s.duplicateMemory) / s.bytesPerRow = 0 then _
      else _) = _
    split <;> rfl

theorem ask_mirrors {limit limit' : Except QueryError Nat} (request : Nat → FetchRequest)
    (h : limit'.toOption = limit.toOption) :
    s.Mirrors c (s.unkeyed.ask (c.spared s.duplicateMemory) limit' request)
      (s.ask c limit request) := by
  cases hc : c.fetchDone with
  | true =>
    simp only [ask, hc, ↓reduceIte]
    exact .cut hc
  | false =>
    have hf : (c.spared s.duplicateMemory).fetchDone = false := rfl
    simp only [ask, hc, hf, Bool.false_eq_true, ↓reduceIte]
    cases limit with
    | error e => exact .fail
    | ok n =>
      cases limit' with
      | error e => cases h
      | ok n' =>
        cases h
        exact .request

theorem step_mirrors (s : Scan) (c : Control) :
    s.Mirrors c (s.unkeyed.step (c.spared s.duplicateMemory)) (s.step c) := by
  unfold step
  have hp : s.unkeyed.phase = s.phase := rfl
  rw [hp]
  split
  · exact .dry rfl
  · unfold stepPlain
    have hs : s.unkeyed.stream = s.stream := rfl
    rw [hs]
    split
    · rename_i row stream _
      exact .row (t := { s with stream }) row.size rfl rfl
    · split
      · exact .dry (t := { s with phase := .done }) rfl
      · exact ask_mirrors _ rfl
  · exact ask_mirrors _ rfl
  · unfold stepMerge
    have hq : s.unkeyed.queue.pop? (Feed.compare s.unkeyed.specs) =
        s.queue.pop? (Feed.compare s.specs) := rfl
    rw [hq]
    split
    · exact .dry (t := { s with phase := .done }) rfl
    · rename_i top queue _
      simp only
      split
      · rename_i row rest _
        split
        · exact .row (t := { s with queue }) row.size rfl rfl
        · exact .row (t := enqueue { s with queue } rest) row.size rfl rfl
      · split
        · exact .more (t := { s with queue }) rfl rfl
        · exact ask_mirrors _ (s.mergeLimit_unkeyed c)

/-- What comes of a row in a scan that was shown just the rows before it. -/
inductive Shows (s : Scan) (row : Value) (c : Control) (fields : List String)
    (before : List Value) : Step Scan → Prop where
  | repetition {d : DuplicateSet} (hr : Repeats fields before row) (hd : s.duplicates = some d)
    (hs : d.Shown fields (before ++ [row])) :
    Shows s row c fields before ⟨.more, s, c.emit .duplicateDropped⟩
  | first {d : DuplicateSet} {ledger : Ledger} (hr : ¬Repeats fields before row)
    (hs : d.Shown fields (before ++ [row])) :
    Shows s row c fields before
      ⟨.row, { s with duplicates := some d }, { c with ledger }.setReg s.reg row⟩
  | fail {e : QueryError} {d : Control} : Shows s row c fields before ⟨.fail e, s, d⟩

theorem yieldRow_shows {d : DuplicateSet} {fields : List String} {before : List Value}
    (hd : s.duplicates = some d) (hs : d.Shown fields before) (row : Value) (c : Control) :
    s.Shows row c fields before (s.yieldRow row c) := by
  simp only [yieldRow, hd]
  unfold inspect
  cases hrow : row.record? with
  | none => exact .fail
  | some record =>
    simp only [hs.same]
    by_cases hr : keyBytes (keyOf fields row) ∈ d.seen
    · have hrep := (hs.exact row).1 hr
      simp only [List.contains_eq_mem, hr, decide_true, ↓reduceIte]
      exact .repetition hrep hd (hs.known hrep)
    · have hrep : ¬Repeats fields before row := fun h => hr ((hs.exact row).2 h)
      simp only [List.contains_eq_mem, hr, decide_false, Bool.false_eq_true, ↓reduceIte]
      unfold Control.charge
      cases c.ledger.charge (keySize fields row) with
      | error e => exact .fail
      | ok ledger =>
        have := hs.add row
        rw [DuplicateSet.add, hs.same] at this
        exact .first hrep this

/-! ## Batches -/

/-- What taking in a batch leaves alone. -/
structure Stages (s t : Scan) (c d : Control) : Prop where
  duplicates : t.duplicates = s.duplicates
  reg : t.reg = s.reg
  distribution : t.distribution = s.distribution
  phase : s.phase ≠ .discovering → t.phase = s.phase
  drops : d.events.count .duplicateDropped = c.events.count .duplicateDropped

theorem events_of_charge {n : Nat} (h : c.charge n = (none, d)) : d.events = c.events := by
  unfold Control.charge at h
  split at h
  · cases h
    rfl
  · cases h

theorem addVirtualScans_unkeyed {scans : List VirtualScan}
    (h : s.addVirtualScans c scans = (none, t, d)) :
    s.unkeyed.addVirtualScans c scans = (none, t.unkeyed, d) ∧ s.Stages t c d := by
  induction scans generalizing s c with
  | nil =>
    cases h
    exact ⟨rfl, rfl, rfl, rfl, fun _ => rfl, rfl⟩
  | cons scan rest ih =>
    unfold addVirtualScans at h ⊢
    have hn : s.unkeyed.nextVirtualId = s.nextVirtualId := rfl
    rw [hn]
    split at h
    · cases h
    · obtain ⟨he, hs⟩ := ih h
      exact ⟨he, { hs with drops := hs.drops.trans (List.count_cons_of_ne (by simp)) }⟩

/-- A batch is taken in alike. -/
theorem deliver_unkeyed {batch : Batch} (h : s.deliver c batch = (none, t, d)) :
    s.unkeyed.deliver c batch = (none, t.unkeyed, d) ∧ s.Stages t c d := by
  unfold deliver at h ⊢
  have hp : s.unkeyed.phase = s.phase := rfl
  rw [hp]
  split at h
  · unfold stagePlain at h ⊢
    split at h
    · cases h
    · rename_i hcharge
      cases h
      exact ⟨rfl, rfl, rfl, rfl, fun _ => rfl, congrArg _ (events_of_charge hcharge)⟩
  · unfold stagePhase1 at h ⊢
    have hc : s.unkeyed.checkPhase1 batch = s.checkPhase1 batch := rfl
    rw [hc]
    split at h
    · cases h
    · rename_i hphase _ info _
      simp only [addPartitions, foldl_enqueue_eq] at h ⊢
      split at h
      · cases h
      · rename_i hcharge
        have hevents := events_of_charge hcharge
        split at h <;> rename_i hin
        · cases h
          exact ⟨by simp only [hin, ↓reduceIte]; rfl, rfl, rfl, rfl, fun _ => rfl,
            congrArg _ hevents⟩
        · cases h
          refine ⟨by simp only [hin]; rfl, rfl, rfl, rfl, fun hn => (hn hphase).elim, ?_⟩
          exact (List.count_cons_of_ne (by simp)).trans (congrArg _ hevents)
  · unfold stageMerge at h ⊢
    have hq : s.unkeyed.queue.pop? (Feed.compare s.unkeyed.specs) =
        s.queue.pop? (Feed.compare s.specs) := rfl
    rw [hq]
    split at h
    · cases h
    · simp only at h ⊢
      split at h
      · cases h
      · rename_i hcharge
        obtain ⟨he, hs⟩ := addVirtualScans_unkeyed h
        exact ⟨he, hs.duplicates, hs.reg, hs.distribution, hs.phase,
          hs.drops.trans (congrArg _ (events_of_charge hcharge))⟩
  · cases h
    exact ⟨rfl, rfl, rfl, rfl, fun _ => rfl, rfl⟩

/-- A scan begins as it would without a primary key. -/
theorem ofInfo_unkeyed {reg : Nat} {info : ReceiveInfo} {shards : List Int}
    (h : ofInfo reg info shards = .ok s) :
    ofInfo reg { info with primaryKey := [] } shards = .ok s.unkeyed ∧ s.reg = reg ∧
      s.duplicates =
        if info.primaryKey.isEmpty then none else some { fields := info.primaryKey } := by
  unfold ofInfo at h ⊢
  simp only at h ⊢
  split at h
  · cases h
    exact ⟨rfl, rfl, rfl⟩
  · cases h
    exact ⟨rfl, rfl, rfl⟩
  · cases h
    exact ⟨rfl, rfl, rfl⟩
  · split at h
    · cases h
    · rename_i hs
      cases h
      exact ⟨by simp only [hs]; rfl, rfl, rfl⟩

end Scan
end ShardQuery
