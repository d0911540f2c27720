import ShardQuery.Proofs.Operator.Actions

/-!
A call whose fetch is spent stops every operator where it would ask for a batch, and the next call
finds it there: the step that was cut short is the first one that is taken then.
-/

namespace ShardQuery

def Signal.asks : Signal → Bool
  | .request _ => true
  | _ => false

/-- The signals that no operator above a scan changes. -/
def Signal.halts : Signal → Bool
  | .request _ | .fail _ => true
  | _ => false

/-- A step as it would be in another frame. -/
def Step.within {σ : Type} (t : Step σ) (φ : Frame) : Step σ :=
  ⟨t.signal, t.state, t.control.within φ⟩

/-! ## Only scans ask -/

namespace Selection

theorem emit_asks (s : Selection) (b : Bounds) (row : Value) (c : Control) :
    (s.emit b row c).signal.asks = false := by
  unfold emit
  split <;> rfl

theorem project_asks (s : Selection) (b : Bounds) (c : Control) :
    (s.project b c).signal.asks = false := by
  unfold project
  split
  · exact emit_asks ..
  · split
    · rfl
    · exact emit_asks ..

theorem foldAndEmit_asks (s : Selection) (b : Bounds) (row : Option Value) (c : Control) :
    (s.foldAndEmit b row c).signal.asks = false := by
  unfold foldAndEmit
  simp only
  split
  · rfl
  · exact emit_asks ..
  · rfl

theorem groupRow_asks (s : Selection) (b : Bounds) (c : Control) :
    (s.groupRow b c).signal.asks = false := by
  unfold groupRow
  simp only
  split
  · rfl
  · split
    · exact foldAndEmit_asks ..
    · split
      · exact foldAndEmit_asks ..
      · split
        · rfl
        · exact foldAndEmit_asks ..

theorem endGroups_asks (s : Selection) (b : Bounds) (gb : Nat) (c : Control) :
    (s.endGroups b gb c).signal.asks = false := by
  unfold endGroups
  split
  · split
    · rfl
    · exact emit_asks ..
  · split
    · split
      · rfl
      · exact emit_asks ..
    · rfl

theorem begin_asks {s : Selection} {c : Control} {r : Step Selection} (h : s.begin c = .inl r) :
    r.signal.asks = false := by
  unfold begin at h
  split at h
  · cases h; rfl
  · split at h
    · cases h; rfl
    · simp only at h
      split at h
      · cases h; rfl
      · cases h

/-- Once a selection has begun, it begins again without doing anything. -/
theorem begin_again {s t : Selection} {b : Bounds} {c d : Control}
    (h : s.begin c = .inr (b, t, d)) (e : Control) : t.begin e = .inr (b, t, e) := by
  unfold begin at h
  split at h
  · cases h
  · rename_i hf
    split at h
    · cases h
    · simp only at h
      split at h
      · cases h
      · rename_i hr
        cases h
        simp [begin, evalBounds, hf, hr]

theorem onInput_halts (s : Selection) (b : Bounds) {signal : Signal} (c : Control)
    (h : signal.halts = true) : s.onInput b signal c = ⟨signal, s, c⟩ := by
  cases signal <;> first | rfl | cases h

theorem onInput_asks (s : Selection) (b : Bounds) {signal : Signal} (c : Control)
    (h : signal.asks = false) : (s.onInput b signal c).signal.asks = false := by
  unfold onInput
  split
  · exact project_asks ..
  · exact groupRow_asks ..
  · split
    · rfl
    · split
      · rfl
      · exact endGroups_asks ..
  · exact h

theorem onInput_within (s : Selection) (b : Bounds) (signal : Signal) {c : Control} {φ : Frame}
    (h : c.needsContinuation = φ.needsContinuation) :
    s.onInput b signal (c.within φ) = (s.onInput b signal c).within φ := by
  have hn : (c.within φ).needsContinuation = c.needsContinuation := h.symm
  unfold onInput
  split
  · exact (s.project_framed b).frame c φ
  · exact (s.groupRow_framed b).frame c φ
  · rw [hn]
    split
    · rfl
    · split
      · rfl
      · exact (s.endGroups_framed b _).frame c φ
  · rfl

theorem onInput_settings (s : Selection) (b : Bounds) (signal : Signal) (c : Control) :
    (s.onInput b signal c).control.settings = c.settings := by
  unfold onInput
  split
  · exact (s.project_framed b).settings c
  · exact (s.groupRow_framed b).settings c
  · split
    · rfl
    · split
      · rfl
      · exact (s.endGroups_framed b _).settings c
  · rfl

end Selection

namespace Grouping

theorem streamRow_asks (g : Grouping) (key : List Value) (c : Control) :
    (g.streamRow key c).signal.asks = false := by
  unfold streamRow
  split
  · rfl
  · split <;> rfl

theorem foldRow_asks (g : Grouping) (key partials : List Value) (c : Control) :
    (g.foldRow key partials c).signal.asks = false := by
  unfold foldRow
  split
  · rfl
  · simp only
    split
    · rfl
    · split
      · rfl
      · split <;> rfl

theorem consume_asks (g : Grouping) (c : Control) : (g.consume c).signal.asks = false := by
  unfold consume
  split
  · split
    · rfl
    · split
      · exact streamRow_asks ..
      · split
        · rfl
        · exact foldRow_asks ..
  · rfl

theorem endInput_asks (g : Grouping) (c : Control) : (g.endInput c).signal.asks = false := by
  unfold endInput
  split
  · rfl
  · split
    · split <;> rfl
    · rfl

theorem emitNext_asks (g : Grouping) (c : Control) : (g.emitNext c).signal.asks = false := by
  unfold emitNext
  split
  · rfl
  · simp only
    split
    · rfl
    · split <;> rfl

theorem onInput_halts (g : Grouping) {signal : Signal} (c : Control)
    (h : signal.halts = true) : g.onInput signal c = ⟨signal, g, c⟩ := by
  cases signal <;> first | rfl | cases h

theorem onInput_asks (g : Grouping) {signal : Signal} (c : Control)
    (h : signal.asks = false) : (g.onInput signal c).signal.asks = false := by
  unfold onInput
  split
  · exact consume_asks ..
  · split
    · rfl
    · exact endInput_asks ..
  · exact h

theorem onInput_within (g : Grouping) (signal : Signal) {c : Control} {φ : Frame}
    (h : c.needsContinuation = φ.needsContinuation) :
    g.onInput signal (c.within φ) = (g.onInput signal c).within φ := by
  have hn : (c.within φ).needsContinuation = c.needsContinuation := h.symm
  unfold onInput
  split
  · exact g.consume_framed.frame c φ
  · rw [hn]
    split
    · rfl
    · exact g.endInput_framed.frame c φ
  · rfl

theorem onInput_settings (g : Grouping) (signal : Signal) (c : Control) :
    (g.onInput signal c).control.settings = c.settings := by
  unfold onInput
  split
  · exact g.consume_framed.settings c
  · split
    · rfl
    · exact g.endInput_framed.settings c
  · rfl

end Grouping

namespace Sorting

theorem emitNext_asks (s : Sorting) (rows : List Value) (c : Control) :
    (s.emitNext rows c).signal.asks = false := by
  cases rows <;> rfl

theorem onInput_halts (s : Sorting) {signal : Signal} (c : Control)
    (h : signal.halts = true) : s.onInput signal c = ⟨signal, s, c⟩ := by
  cases signal <;> first | rfl | cases h

theorem onInput_asks (s : Sorting) {signal : Signal} (c : Control)
    (h : signal.asks = false) : (s.onInput signal c).signal.asks = false := by
  unfold onInput
  split
  · simp only [consume]
    split <;> rfl
  · split <;> rfl
  · exact h

theorem onInput_within (s : Sorting) (signal : Signal) {c : Control} {φ : Frame}
    (h : c.needsContinuation = φ.needsContinuation) :
    s.onInput signal (c.within φ) = (s.onInput signal c).within φ := by
  have hn : (c.within φ).needsContinuation = c.needsContinuation := h.symm
  unfold onInput
  split
  · exact s.consume_framed.frame c φ
  · rw [hn]
    split
    · rfl
    · exact s.endInput_framed.frame c φ
  · rfl

theorem onInput_settings (s : Sorting) (signal : Signal) (c : Control) :
    (s.onInput signal c).control.settings = c.settings := by
  unfold onInput
  split
  · exact s.consume_framed.settings c
  · split
    · rfl
    · exact s.endInput_framed.settings c
  · rfl

end Sorting

/-! ## A scan and the fetch of the call -/

namespace Scan

theorem yieldRow_asks (s : Scan) (row : Value) (c : Control) :
    (s.yieldRow row c).signal.asks = false := by
  unfold yieldRow
  split
  · rfl
  · split
    · rfl
    · rfl
    · split <;> rfl

theorem mergeLimit_within (s : Scan) (c : Control) (φ : Frame) :
    s.mergeLimit (c.within φ) = s.mergeLimit c := rfl

/-- Whether the next step asks for a batch is up to the scan alone. -/
theorem step_asks_or_framed (s : Scan) :
    (∃ (limit : Control → Except QueryError Nat) (request : Nat → FetchRequest),
      (∀ c φ, limit (c.within φ) = limit c) ∧ ∀ c, s.step c = s.ask c (limit c) request) ∨
    (Framed s.step ∧ ∀ c, (s.step c).signal.asks = false) := by
  unfold step
  split
  · exact .inr ⟨⟨fun _ _ => rfl, fun _ => rfl⟩, fun _ => rfl⟩
  · unfold stepPlain
    split
    · rename_i row stream _
      refine .inr ⟨⟨fun c φ => ?_, fun c => ?_⟩, fun c => yieldRow_asks ..⟩
      · exact (yieldRow_framed _ row).frame (c.release row.size) φ
      · exact (yieldRow_framed _ row).settings (c.release row.size)
    · split
      · exact .inr ⟨⟨fun _ _ => rfl, fun _ => rfl⟩, fun _ => rfl⟩
      · exact .inl ⟨fun c => .ok c.config.batchLimit, _, fun _ _ => rfl, fun _ => rfl⟩
  · exact .inl ⟨fun c => .ok c.config.batchLimit, _, fun _ _ => rfl, fun _ => rfl⟩
  · unfold stepMerge
    split
    · exact .inr ⟨⟨fun _ _ => rfl, fun _ => rfl⟩, fun _ => rfl⟩
    · simp only
      split
      · rename_i row _ _
        refine .inr ⟨⟨fun c φ => ?_, fun c => ?_⟩, fun c => yieldRow_asks ..⟩
        · exact (yieldRow_framed _ row).frame (c.release row.size) φ
        · exact (yieldRow_framed _ row).settings (c.release row.size)
      · split
        · exact .inr ⟨⟨fun _ _ => rfl, fun _ => rfl⟩, fun _ => rfl⟩
        · exact .inl ⟨s.mergeLimit, _, s.mergeLimit_within, fun _ => rfl⟩

theorem ask_fresh (s : Scan) {c : Control} (hc : c.fetchDone = false)
    (limit : Except QueryError Nat) (request : Nat → FetchRequest) :
    ∃ signal, signal.halts = true ∧ s.ask c limit request = ⟨signal, s, c⟩ := by
  simp only [ask, hc, Bool.false_eq_true, ↓reduceIte]
  cases limit with
  | ok n => exact ⟨_, rfl, rfl⟩
  | error e => exact ⟨_, rfl, rfl⟩

theorem step_within (s : Scan) {c : Control} {φ : Frame} (hc : c.frame.Fresh) (hφ : φ.Fresh) :
    s.step (c.within φ) = (s.step c).within φ := by
  obtain ⟨limit, request, hl, hs⟩ | ⟨hf, -⟩ := s.step_asks_or_framed
  · have h1 : c.fetchDone = false := hc.1
    have h2 : (c.within φ).fetchDone = false := hφ.1
    simp only [hs, hl, ask, h1, h2, Bool.false_eq_true, ↓reduceIte]
    cases limit c <;> rfl
  · exact hf.frame c φ

theorem step_spent (s : Scan) {c : Control} {φ : Frame} (hc : c.frame.Fresh) (hφ : φ.Spent) :
    (s.step (c.within φ) = (s.step c).within φ ∧ (s.step c).signal.asks = false) ∨
    (s.step (c.within φ) = ⟨.dry, s, (c.within φ).suspend⟩ ∧
      ∃ signal, signal.halts = true ∧ s.step c = ⟨signal, s, c⟩) := by
  obtain ⟨limit, request, hl, hs⟩ | ⟨hf, ha⟩ := s.step_asks_or_framed
  · have h2 : (c.within φ).fetchDone = true := hφ.1
    refine .inr ⟨?_, ?_⟩
    · simp only [hs, ask, h2, ↓reduceIte]
    · simpa only [hs] using s.ask_fresh hc.1 (limit c) request
  · exact .inl ⟨hf.frame c φ, ha c⟩

theorem step_settings (s : Scan) (c : Control) : (s.step c).control.settings = c.settings := by
  obtain ⟨limit, request, -, hs⟩ | ⟨hf, -⟩ := s.step_asks_or_framed
  · rw [hs]
    unfold ask
    split
    · rfl
    · split <;> rfl
  · exact hf.settings c

end Scan

/-! ## The whole tree -/

namespace Operator

/-- The scan at the bottom. -/
def leaf : Operator → Scan
  | .scan s => s
  | .select _ input | .group _ input | .sort _ input => input.leaf

/-- What is left after a step that waits for a batch: taken again, it would do the same. -/
structure Awaits (op : Operator) (t : Step Operator) : Prop where
  halts : t.signal.halts = true
  again : t.state.step t.control = t
  leaf : t.state.leaf = op.leaf

theorem step_settings (op : Operator) (c : Control) :
    (op.step c).control.settings = c.settings := by
  induction op generalizing c with
  | scan s => exact s.step_settings c
  | select s input ih =>
    have hb := s.begin_framed.settings c
    unfold step
    split
    · rename_i h
      rwa [h] at hb
    · rename_i h
      rw [h] at hb
      exact (Selection.onInput_settings ..).trans ((ih _).trans hb)
  | group g input ih =>
    unfold step
    split
    · rfl
    · exact g.emitNext_framed.settings c
    · exact (g.onInput_settings ..).trans (ih c)
  | sort s input ih =>
    unfold step
    split
    · exact (s.emitNext_framed _).settings c
    · exact (s.onInput_settings ..).trans (ih c)

/-- As long as the fetch of the call is not spent, the frame makes no difference. -/
theorem step_within (op : Operator) {c : Control} {φ : Frame} (hc : c.frame.Fresh)
    (hφ : φ.Fresh) : op.step (c.within φ) = (op.step c).within φ := by
  induction op generalizing c φ with
  | scan s =>
    simp only [step, s.step_within hc hφ]
    rfl
  | select s input ih =>
    have hb := s.begin_framed.frame c φ
    have hd := s.begin_framed.frame_control c
    simp only [step, hb]
    cases h : s.begin c with
    | inl done => rfl
    | inr p =>
      obtain ⟨b, t, d⟩ := p
      have hf : d.frame.Fresh := by
        rw [h] at hd
        exact ⟨(congrArg Frame.fetchDone hd).trans hc.1,
          (congrArg Frame.needsContinuation hd).trans hc.2⟩
      have hi : (input.step d).control.frame.Fresh := by
        rw [← d.within_frame, ih ⟨rfl, rfl⟩ hf]
        exact hf
      simp only [Carries.onControl, Sum.map_inr, ih hf hφ]
      rw [Step.within, t.onInput_within b _ (hi.2.trans hφ.2.symm)]
      rfl
  | group g input ih =>
    have hi : (input.step c).control.frame.Fresh := by
      rw [← c.within_frame, ih ⟨rfl, rfl⟩ hc]
      exact hc
    simp only [step]
    split
    · rfl
    · rw [g.emitNext_framed.frame]
      rfl
    · rw [ih hc hφ, Step.within, g.onInput_within _ (hi.2.trans hφ.2.symm)]
      rfl
  | sort s input ih =>
    have hi : (input.step c).control.frame.Fresh := by
      rw [← c.within_frame, ih ⟨rfl, rfl⟩ hc]
      exact hc
    simp only [step]
    split
    · rw [(s.emitNext_framed _).frame]
      rfl
    · rw [ih hc hφ, Step.within, s.onInput_within _ (hi.2.trans hφ.2.symm)]
      rfl

theorem step_fresh (op : Operator) {c : Control} (hc : c.frame.Fresh) :
    (op.step c).control.frame.Fresh := by
  rw [← c.within_frame, op.step_within ⟨rfl, rfl⟩ hc]
  exact hc

/-- With the fetch of the call spent, a step is the same as otherwise, or it is cut short where it
would have to wait. -/
theorem step_spent (op : Operator) {c : Control} {φ : Frame} (hc : c.frame.Fresh)
    (hφ : φ.Spent) :
    (op.step (c.within φ) = (op.step c).within φ ∧ (op.step c).signal.asks = false) ∨
    (op.step (c.within φ) =
        ⟨.dry, (op.step c).state, ((op.step c).control.within φ).suspend⟩ ∧
      op.Awaits (op.step c)) := by
  induction op generalizing c φ with
  | scan s =>
    obtain ⟨h, ha⟩ | ⟨h, signal, hs, he⟩ := s.step_spent hc hφ
    · refine .inl ⟨?_, ha⟩
      simp only [step, h]
      rfl
    · refine .inr ⟨?_, ?_⟩
      · simp only [step, h, he]
        rfl
      · simp only [step, he]
        exact ⟨hs, by simp only [step, Step.map, he], rfl⟩
  | select s input ih =>
    have hb := s.begin_framed.frame c φ
    have hd := s.begin_framed.frame_control c
    simp only [step, hb]
    cases h : s.begin c with
    | inl done => exact .inl ⟨rfl, Selection.begin_asks h⟩
    | inr p =>
      obtain ⟨b, t, d⟩ := p
      have hf : d.frame.Fresh := by
        rw [h] at hd
        exact ⟨(congrArg Frame.fetchDone hd).trans hc.1,
          (congrArg Frame.needsContinuation hd).trans hc.2⟩
      have hi := input.step_fresh hf
      obtain ⟨hj, ha⟩ | ⟨hj, hw⟩ := ih hf hφ
      · refine .inl ⟨?_, t.onInput_asks b _ ha⟩
        simp only [Carries.onControl, Sum.map_inr, hj]
        rw [Step.within, t.onInput_within b _ (hi.2.trans hφ.2.symm)]
        rfl
      · refine .inr ⟨?_, ?_⟩
        · simp only [Carries.onControl, Sum.map_inr, hj, t.onInput_halts b _ hw.halts]
          rfl
        · simp only [t.onInput_halts b _ hw.halts]
          refine ⟨hw.halts, ?_, hw.leaf⟩
          simp only [Step.map, step, Selection.begin_again h, hw.again,
            t.onInput_halts b _ hw.halts]
  | group g input ih =>
    have hi := input.step_fresh hc
    simp only [step]
    split
    · exact .inl ⟨rfl, rfl⟩
    · refine .inl ⟨?_, g.emitNext_asks c⟩
      rw [g.emitNext_framed.frame]
      rfl
    · rename_i hp
      obtain ⟨hj, ha⟩ | ⟨hj, hw⟩ := ih hc hφ
      · refine .inl ⟨?_, g.onInput_asks _ ha⟩
        rw [hj, Step.within, g.onInput_within _ (hi.2.trans hφ.2.symm)]
        rfl
      · refine .inr ⟨?_, ?_⟩
        · simp only [hj, g.onInput_halts _ hw.halts]
          rfl
        · simp only [g.onInput_halts _ hw.halts]
          refine ⟨hw.halts, ?_, hw.leaf⟩
          simp only [Step.map, step, hp, hw.again, g.onInput_halts _ hw.halts]
  | sort s input ih =>
    have hi := input.step_fresh hc
    simp only [step]
    split
    · refine .inl ⟨?_, s.emitNext_asks _ c⟩
      rw [(s.emitNext_framed _).frame]
      rfl
    · rename_i hp
      obtain ⟨hj, ha⟩ | ⟨hj, hw⟩ := ih hc hφ
      · refine .inl ⟨?_, s.onInput_asks _ ha⟩
        rw [hj, Step.within, s.onInput_within _ (hi.2.trans hφ.2.symm)]
        rfl
      · refine .inr ⟨?_, ?_⟩
        · simp only [hj, s.onInput_halts _ hw.halts]
          rfl
        · simp only [s.onInput_halts _ hw.halts]
          refine ⟨hw.halts, ?_, hw.leaf⟩
          simp only [Step.map, step, hp, hw.again, s.onInput_halts _ hw.halts]

/-- A request leaves the tree where it would be made again. -/
theorem awaits_of_request (op : Operator) {c : Control} {r : FetchRequest} (hc : c.frame.Fresh)
    (h : (op.step c).signal = .request r) : op.Awaits (op.step c) := by
  obtain ⟨-, ha⟩ | ⟨-, hw⟩ := op.step_spent (φ := ⟨true, false, .zero, .zero, none, []⟩) hc
    ⟨rfl, rfl⟩
  · simp [h, Signal.asks] at ha
  · exact hw

end Operator
end ShardQuery
