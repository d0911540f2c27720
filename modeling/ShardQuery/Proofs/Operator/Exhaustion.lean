import ShardQuery.Operator.Control

/-!
Running an operator until its rows end, over as many calls as it takes.
-/

namespace ShardQuery

variable {σ α : Type}

/-- What it comes to when steps are taken until there are no more rows: a failure, or what is seen
with each row that comes out. A call may end after any row. -/
inductive Exhausts (step : σ → Control → Step σ) (seen : σ → Control → α) :
    σ → Control → Except QueryError (List α) → Prop
  | dry {s p : σ} {c d : Control} :
    step s c = ⟨.dry, p, d⟩ → d.needsContinuation = false → Exhausts step seen s c (.ok [])
  | fail {s p : σ} {c d : Control} {e : QueryError} :
    step s c = ⟨.fail e, p, d⟩ → Exhausts step seen s c (.error e)
  | pause {s p : σ} {c d : Control} {r : Except QueryError (List α)} :
    step s c = ⟨.dry, p, d⟩ → d.needsContinuation = true →
      Exhausts step seen p d.beginCall r → Exhausts step seen s c r
  | more {s p : σ} {c d : Control} {r : Except QueryError (List α)} :
    step s c = ⟨.more, p, d⟩ → Exhausts step seen p d r → Exhausts step seen s c r
  | row {s p : σ} {c d d' : Control} {r : Except QueryError (List α)} :
    step s c = ⟨.row, p, d⟩ → d' = d ∨ d' = d.beginCall → Exhausts step seen p d' r →
      Exhausts step seen s c (r.map (seen p d :: ·))

/-- Steps come to an end, and whatever they come to is as told. -/
def EndsWith (step : σ → Control → Step σ) (seen : σ → Control → α) (s : σ) (c : Control)
    (P : Except QueryError (List α) → Prop) : Prop :=
  (∃ r, Exhausts step seen s c r) ∧ ∀ r, Exhausts step seen s c r → P r

namespace EndsWith
variable {step : σ → Control → Step σ} {seen : σ → Control → α} {s p : σ} {c d : Control}
  {e : QueryError} {P Q : Except QueryError (List α) → Prop}

theorem mono (h : EndsWith step seen s c P) (hPQ : ∀ r, P r → Q r) : EndsWith step seen s c Q :=
  ⟨h.1, fun r hr => hPQ r (h.2 r hr)⟩

theorem dry (hs : step s c = ⟨.dry, p, d⟩) (hd : d.needsContinuation = false) (h : P (.ok [])) :
    EndsWith step seen s c P := by
  refine ⟨⟨_, .dry hs hd⟩, fun r hr => ?_⟩
  cases hr with
  | dry => exact h
  | pause hs' hd' =>
    cases hs.symm.trans hs'
    cases hd.symm.trans hd'
  | fail hs' | more hs' | row hs' => cases hs.symm.trans hs'

theorem fail (hs : step s c = ⟨.fail e, p, d⟩) (h : P (.error e)) : EndsWith step seen s c P := by
  refine ⟨⟨_, .fail hs⟩, fun r hr => ?_⟩
  cases hr with
  | fail hs' =>
    cases hs.symm.trans hs'
    exact h
  | dry hs' | pause hs' | more hs' | row hs' => cases hs.symm.trans hs'

theorem pause (hs : step s c = ⟨.dry, p, d⟩) (hd : d.needsContinuation = true)
    (h : EndsWith step seen p d.beginCall P) : EndsWith step seen s c P := by
  obtain ⟨⟨r, hr⟩, hall⟩ := h
  refine ⟨⟨r, .pause hs hd hr⟩, fun r hr => ?_⟩
  cases hr with
  | pause hs' _ hrest =>
    cases hs.symm.trans hs'
    exact hall r hrest
  | dry hs' hd' =>
    cases hs.symm.trans hs'
    cases hd.symm.trans hd'
  | fail hs' | more hs' | row hs' => cases hs.symm.trans hs'

theorem more (hs : step s c = ⟨.more, p, d⟩) (h : EndsWith step seen p d P) :
    EndsWith step seen s c P := by
  obtain ⟨⟨r, hr⟩, hall⟩ := h
  refine ⟨⟨r, .more hs hr⟩, fun r hr => ?_⟩
  cases hr with
  | more hs' hrest =>
    cases hs.symm.trans hs'
    exact hall r hrest
  | dry hs' | pause hs' | fail hs' | row hs' => cases hs.symm.trans hs'

theorem row (hs : step s c = ⟨.row, p, d⟩) (h : EndsWith step seen p d Q)
    (h' : EndsWith step seen p d.beginCall Q) (hPQ : ∀ r, Q r → P (r.map (seen p d :: ·))) :
    EndsWith step seen s c P := by
  obtain ⟨⟨r, hr⟩, hall⟩ := h
  refine ⟨⟨_, .row hs (.inl rfl) hr⟩, fun r hr => ?_⟩
  cases hr with
  | row hs' hnext hrest =>
    cases hs.symm.trans hs'
    rcases hnext with rfl | rfl
    · exact hPQ _ (hall _ hrest)
    · exact hPQ _ (h'.2 _ hrest)
  | dry hs' | pause hs' | fail hs' | more hs' => cases hs.symm.trans hs'

/-- Only the first step tells where one begins. -/
theorem of_step_eq {s' : σ} {c' : Control} (hs : step s c = step s' c')
    (h : EndsWith step seen s' c' P) : EndsWith step seen s c P := by
  have hiff (r : Except QueryError (List α)) :
      Exhausts step seen s' c' r ↔ Exhausts step seen s c r := by
    constructor <;> intro hr <;> cases hr with
    | dry ht hd => exact .dry (by rw [← ht, hs]) hd
    | fail ht => exact .fail (by rw [← ht, hs])
    | pause ht hd hr => exact .pause (by rw [← ht, hs]) hd hr
    | more ht hr => exact .more (by rw [← ht, hs]) hr
    | row ht hn hr => exact .row (by rw [← ht, hs]) hn hr
  exact ⟨h.1.imp fun r => (hiff r).1, fun r hr => h.2 r ((hiff r).2 hr)⟩

end EndsWith
end ShardQuery
