import ShardQuery.Operator.Progress
import ShardQuery.Proofs.Operator.Suspension

/-!
The scan below the other operators. Only it asks for batches and takes them in, and what is above it
does nothing to it but let it take its steps. So what all steps of a scan keep, all operators keep.
-/

namespace ShardQuery

namespace Scan

theorem state_of_request {s : Scan} {c : Control} {r : FetchRequest}
    (h : (s.step c).signal = .request r) : (s.step c).state = s := by
  obtain ⟨limit, request, -, hs⟩ | ⟨-, ha⟩ := s.step_asks_or_framed
  · rw [hs, ask_state]
  · have := ha c
    rw [h] at this
    cases this

end Scan

/-- An operator asks for a batch only if its input does. -/
theorem Signal.request_of {signal result : Signal} {r : FetchRequest}
    (ha : signal.asks = false → result.asks = false) (hh : signal.halts = true → result = signal)
    (h : result = .request r) : signal = .request r := by
  subst h
  cases hs : signal.asks with
  | false => cases ha hs
  | true =>
    refine (hh ?_).symm
    cases signal <;> first | rfl | cases hs

namespace Operator
variable {P : Scan → Prop}

/-- A step of the tree is at most one step of its scan. -/
theorem step_leaf (hP : ∀ s c, P s → P (s.step c).state) (op : Operator) (c : Control)
    (h : P op.leaf) : P (op.step c).state.leaf := by
  induction op generalizing c with
  | scan s => exact hP s c h
  | select s input ih =>
    unfold step
    split
    · exact h
    · exact ih _ h
  | group g input ih =>
    unfold step
    split
    · exact h
    · exact h
    · exact ih c h
  | sort s input ih =>
    unfold step
    split
    · exact h
    · exact ih c h

/-- In a step of an operator its scan takes a step too, with a control that the operators above have
seen. -/
inductive Reaches : Operator → Control → Scan → Control → Prop
  | scan (s : Scan) (c : Control) : Reaches (.scan s) c s c
  | select {t u : Selection} {b : Bounds} {input : Operator} {c d e : Control} {s : Scan}
    (hb : t.begin c = .inr (b, u, d)) (h : Reaches input d s e) : Reaches (.select t input) c s e
  | group {g : Grouping} {input : Operator} {c d : Control} {s : Scan}
    (hg : g.phase = .consuming) (h : Reaches input c s d) : Reaches (.group g input) c s d
  | sort {t : Sorting} {input : Operator} {c d : Control} {s : Scan}
    (ht : t.sorted = none) (h : Reaches input c s d) : Reaches (.sort t input) c s d

namespace Reaches
variable {op : Operator} {c d : Control} {s : Scan}

theorem leaf (h : op.Reaches c s d) : op.leaf = s := by
  induction h with
  | scan => rfl
  | select _ _ ih | group _ _ ih | sort _ _ ih => exact ih

theorem settings (h : op.Reaches c s d) : d.settings = c.settings := by
  induction h with
  | scan => rfl
  | @select t _ _ _ c _ _ _ hb _ ih =>
    have := t.begin_framed.settings c
    rw [hb] at this
    exact ih.trans this
  | group _ _ ih | sort _ _ ih => exact ih

theorem fresh (h : op.Reaches c s d) (hc : c.frame.Fresh) : d.frame.Fresh := by
  induction h with
  | scan => exact hc
  | @select t _ _ _ c _ _ _ hb _ ih =>
    have hd := t.begin_framed.frame_control c
    rw [hb] at hd
    exact ih ⟨(congrArg Frame.fetchDone hd).trans hc.1,
      (congrArg Frame.needsContinuation hd).trans hc.2⟩
  | group _ _ ih | sort _ _ ih => exact ih hc

/-- Nothing else moves the scan, and none of the operators above hides that it waits or fails. -/
theorem step (h : op.Reaches c s d) : (op.step c).state.leaf = (s.step d).state ∧
    ((s.step d).signal.halts = true → (op.step c).signal = (s.step d).signal) := by
  induction h with
  | scan => exact ⟨rfl, fun _ => rfl⟩
  | @select t u b input c d s e hb _ ih =>
    simp only [Operator.step, hb]
    refine ⟨ih.1, fun hh => ?_⟩
    rw [Step.map, u.onInput_halts b _ (by rwa [ih.2 hh]), ih.2 hh]
  | @group g input c d s hg _ ih =>
    simp only [Operator.step, hg]
    refine ⟨ih.1, fun hh => ?_⟩
    rw [Step.map, g.onInput_halts _ (by rwa [ih.2 hh]), ih.2 hh]
  | @sort t input c d s ht _ ih =>
    simp only [Operator.step, ht]
    refine ⟨ih.1, fun hh => ?_⟩
    rw [Step.map, t.onInput_halts _ (by rwa [ih.2 hh]), ih.2 hh]

end Reaches

/-- Only the scan asks for a batch. -/
theorem reaches_of_request (op : Operator) (c : Control) {r : FetchRequest}
    (h : (op.step c).signal = .request r) :
    ∃ s d, op.Reaches c s d ∧ (s.step d).signal = .request r := by
  induction op generalizing c with
  | scan s => exact ⟨s, c, .scan s c, h⟩
  | select s input ih =>
    unfold step at h
    split at h
    · rename_i done hb
      have ha := Selection.begin_asks hb
      rw [show done.signal = .request r from h] at ha
      cases ha
    · rename_i b t d hb
      obtain ⟨l, e, hr, hs⟩ := ih d (Signal.request_of (t.onInput_asks b _)
        (fun hh => by rw [t.onInput_halts b _ hh]) h)
      exact ⟨l, e, .select hb hr, hs⟩
  | group g input ih =>
    unfold step at h
    split at h
    · cases h
    · have ha := g.emitNext_asks c
      rw [show (g.emitNext c).signal = .request r from h] at ha
      cases ha
    · rename_i hg
      obtain ⟨l, e, hr, hs⟩ := ih c (Signal.request_of (g.onInput_asks _)
        (fun hh => by rw [g.onInput_halts _ hh]) h)
      exact ⟨l, e, .group hg hr, hs⟩
  | sort s input ih =>
    unfold step at h
    split at h
    · rename_i rows _
      have ha := s.emitNext_asks rows c
      rw [show (s.emitNext rows c).signal = .request r from h] at ha
      cases ha
    · rename_i hsorted
      obtain ⟨l, e, hr, hs⟩ := ih c (Signal.request_of (s.onInput_asks _)
        (fun hh => by rw [s.onInput_halts _ hh]) h)
      exact ⟨l, e, .sort hsorted hr, hs⟩

/-- A request is one of the scan, which is still where it makes it. -/
theorem request_leaf (op : Operator) (c : Control) {r : FetchRequest}
    (h : (op.step c).signal = .request r) :
    ∃ d, ((op.step c).state.leaf.step d).signal = .request r := by
  obtain ⟨s, d, hr, hs⟩ := op.reaches_of_request c h
  rw [hr.step.1, Scan.state_of_request hs]
  exact ⟨d, hs⟩

theorem pull_leaf (hP : ∀ s c, P s → P (s.step c).state) (op : Operator) (c : Control)
    (h : P op.leaf) : P (op.pull c).state.leaf ∧ ∀ r, (op.pull c).signal = .request r →
      ∃ d, ((op.pull c).state.leaf.step d).signal = .request r := by
  induction hn : op.work using Nat.strongRecOn generalizing op c with
  | ind n ih =>
    have hs := op.step_leaf hP c h
    rw [pull_eq]
    split
    · rename_i hm
      exact ih _ (hn ▸ step_work_lt (by rw [hm]; rfl)) _ _ hs rfl
    · exact ⟨hs, fun r hr => op.request_leaf c hr⟩

/-- A batch goes to the scan. -/
theorem deliver_leaf (op : Operator) (c : Control) (batch : Batch) :
    (op.deliver c batch).1 = (op.leaf.deliver c batch).1 ∧
      (op.deliver c batch).2.1.leaf = (op.leaf.deliver c batch).2.1 := by
  induction op with
  | scan s => exact ⟨rfl, rfl⟩
  | select s input ih | group g input ih | sort s input ih => exact ih

end Operator
end ShardQuery
