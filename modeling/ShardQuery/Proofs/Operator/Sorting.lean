import ShardQuery.Proofs.Operator.Arrivals
import ShardQuery.Proofs.Operator.Books
import ShardQuery.Proofs.Operator.Exhaustion
import ShardQuery.Proofs.Operator.Registers
import ShardQuery.Proofs.Value.Sorting

/-!
Sort steps on top of any input. They read in as many calls as the input takes, and an input that
waits for another call is not taken for one that has ended. So what comes out is what the input
handed on, stably sorted, and the rows that are still to come are all that is held.
-/

namespace ShardQuery
variable {σ : Type}

/-- What an input has done: the rows that it handed on, and whether it has ended. -/
structure Delivery where
  rows : List Value := []
  ended : Bool := false

/-- Notes what an input did in a step. It has not ended if it needs another call. -/
def Delivery.note (x : Delivery) (inputReg : Nat) (signal : Signal) (c : Control) : Delivery :=
  match signal with
  | .row => { x with rows := x.rows ++ [c.reg inputReg] }
  | .dry => { x with ended := x.ended || !c.needsContinuation }
  | _ => x

/-- One step of an input, with a note of what it did. -/
def noting (inputReg : Nat) (next : σ → Control → Step σ) (p : σ × Delivery) (c : Control) :
    Step (σ × Delivery) :=
  let r := next p.1 c
  ⟨r.signal, (r.state, p.2.note inputReg r.signal r.control), r.control⟩

namespace Sorting

/-- One step of a sort step on top of any input. -/
def stepOver (next : σ → Control → Step σ) (s : Sorting) (i : σ) (c : Control) :
    Step (Sorting × σ) :=
  match s.sorted with
  | some rows => (s.emitNext rows c).map (·, i)
  | none =>
    let r := next i c
    (s.onInput r.signal r.control).map (·, r.state)

/-- The operators of a query step in this way. -/
theorem step_sort (s : Sorting) (input : Operator) (c : Control) :
    (Operator.sort s input).step c =
      (s.stepOver Operator.step input c).map fun p => .sort p.1 p.2 := by
  unfold stepOver
  rw [Operator.step.eq_def]
  simp only
  cases s.sorted <;> rfl

/-- The control when a sort step comes to its own part of a step. -/
def reached (next : σ → Control → Step σ) (s : Sorting) (i : σ) (c : Control) : Control :=
  match s.sorted with
  | some _ => c
  | none => (next i c).control

/-- A sort step that has not begun. -/
structure Fresh (s : Sorting) : Prop where
  arrived : s.arrived = []
  sorted : s.sorted = none
  charged : s.charged = 0

/-- The sort steps of a plan are made fresh. -/
theorem fresh_of_ofStep {shards : List Int} {reg : Nat} {inner : PlanStep} {specs : List SortSpec}
    {countMemory : Bool} {op : Operator}
    (h : Operator.ofStep shards (.sort reg inner specs countMemory) = .ok op) :
    ∃ s input, op = .sort s input ∧ s.Fresh ∧ s.reg = reg ∧ s.inputReg = inner.reg ∧
      s.specs = specs ∧ s.countMemory = countMemory := by
  simp only [Operator.ofStep] at h
  split at h
  · cases h
  · obtain ⟨input, -, h⟩ := ok_of_bind h
    cases h
    exact ⟨_, input, rfl, ⟨rfl, rfl, rfl⟩, rfl, rfl, rfl, rfl⟩

/-- How far a sort step has got without a failure, with what its input has done and the rows that it
has handed on. Each step may be taken in a call of its own, with whatever control, and between calls
anything may become of the input. -/
inductive Course (next : σ → Control → Step σ) (s₀ : Sorting) :
    Sorting → σ × Delivery → List Value → Prop
  | start (i : σ) : Course next s₀ s₀ (i, {}) []
  | step {s t : Sorting} {p q : σ × Delivery} {out : List Value} {c d : Control} {signal : Signal}
    (h : Course next s₀ s p out) (hc : s₀.reg < c.size)
    (hs : s.stepOver (noting s₀.inputReg next) p c = ⟨signal, (t, q), d⟩)
    (hok : ∀ e, signal ≠ .fail e) :
    Course next s₀ t q (if signal = .row then out ++ [d.reg s₀.reg] else out)
  | between {s : Sorting} {i j : σ} {x : Delivery} {out : List Value}
    (h : Course next s₀ s (i, x) out) : Course next s₀ s (j, x) out

/-- A sort step reads as long as its input has not ended, and then hands on the sorted rows. -/
inductive Stage (s₀ : Sorting) : Sorting → Delivery → List Value → Prop
  | reading (rows : List Value) (charged : Nat) :
    Stage s₀ { s₀ with arrived := rows.reverse, sorted := none, charged } ⟨rows, false⟩ []
  | handing {rows out rest : List Value} (charged : Nat)
    (h : out ++ rest = sortRows s₀.specs rows) :
    Stage s₀ { s₀ with arrived := [], sorted := some rest, charged } ⟨rows, true⟩ out

variable {next : σ → Control → Step σ} {s₀ s t : Sorting} {i : σ} {p q : σ × Delivery}
  {x : Delivery} {c d : Control} {signal : Signal} {out rest rows : List Value}

theorem Stage.step (h : Stage s₀ s p.2 out) (hc : s₀.reg < c.size)
    (hs : s.stepOver (noting s₀.inputReg next) p c = ⟨signal, (t, q), d⟩)
    (hok : ∀ e, signal ≠ .fail e) :
    Stage s₀ t q.2 (if signal = .row then out ++ [d.reg s₀.reg] else out) := by
  obtain ⟨i, x⟩ := p
  cases h with
  | reading rows charged =>
    simp only [stepOver, noting] at hs
    generalize next i c = r at hs
    obtain ⟨input, j, c'⟩ := r
    cases input with
    | row =>
      simp only [onInput, consume] at hs
      split at hs
      · cases hs
        exact (hok _ rfl).elim
      · cases hs
        have h := @Stage.reading s₀ (rows ++ [c'.reg s₀.inputReg])
          (charged + cost { s₀ with arrived := rows.reverse, sorted := none, charged }
            (c'.reg s₀.inputReg))
        rw [List.reverse_append, List.reverse_singleton, List.singleton_append] at h
        exact h
    | dry =>
      -- an input that needs another call has not ended, and nothing is sorted yet
      cases hn : c'.needsContinuation with
      | true =>
        simp only [onInput, hn, ↓reduceIte] at hs
        cases hs
        simp only [Delivery.note, hn]
        exact .reading rows charged
      | false =>
        simp only [onInput, endInput, hn, Bool.false_eq_true, ↓reduceIte] at hs
        cases hs
        simp only [Delivery.note, hn]
        exact .handing charged (by rw [List.reverse_reverse]; rfl)
    | more | request =>
      cases hs
      exact .reading rows charged
    | fail e =>
      cases hs
      exact (hok e rfl).elim
  | @handing rows out rest charged h =>
    cases rest with
    | nil =>
      cases hs
      exact .handing charged h
    | cons row rest =>
      simp only [stepOver, emitNext] at hs
      cases hs
      have hread (n : Nat) : ((c.release n).setReg s₀.reg row).reg s₀.reg = row :=
        Control.setReg_reg hc row
      rw [if_pos rfl, hread]
      refine .handing _ ?_
      rw [← h, List.append_assoc, List.singleton_append]

theorem Course.stage (hf : s₀.Fresh) (h : Course next s₀ s p out) : Stage s₀ s p.2 out := by
  induction h with
  | start i =>
    obtain ⟨reg, inputReg, specs, countMemory, arrived, sorted, charged⟩ := s₀
    obtain ⟨rfl, rfl, rfl⟩ := hf
    exact .reading [] 0
  | step _ hc hs hok ih => exact ih.step hc hs hok
  | between _ ih => exact ih

/-! ## What is held -/

theorem stepOver_booked (next : σ → Control → Step σ) (h : s.Exact) (i : σ) (c : Control) :
    Booked (s.reached next i c) s.charged (s.stepOver next i c).state.1
      (s.stepOver next i c).control := by
  unfold stepOver reached
  split
  · exact emitNext_booked h ‹_› c
  · exact onInput_booked h ‹_› _ _

theorem Course.exact (hf : s₀.Fresh) (h : Course next s₀ s p out) : s.Exact := by
  induction h with
  | start i =>
    rw [Exact, rows, hf.arrived, hf.sorted, hf.charged]
    rfl
  | @step s t p q out c d signal _ _ hs _ ih =>
    have hb := (stepOver_booked (noting s₀.inputReg next) ih p c).exact
    rw [hs] at hb
    exact hb
  | between _ ih => exact ih

theorem sum_cost (s : Sorting) (rows : List Value) :
    (rows.map s.cost).sum = if s.countMemory then sizeOfRows rows else 0 := by
  induction rows with
  | nil => cases s.countMemory <;> rfl
  | cons row rows ih =>
    rw [List.map_cons, List.sum_cons, ih, cost]
    cases s.countMemory <;> rfl

/-- The rows that are held are those that are still to come. -/
theorem Stage.rows_perm (h : Stage s₀ s x out) :
    s.rows.Perm ((sortRows s₀.specs x.rows).drop out.length) := by
  cases h with
  | reading rows charged =>
    rw [Sorting.rows, Option.getD_none, List.append_nil, List.length_nil, List.drop_zero]
    exact rows.reverse_perm.trans (sortRows_stable s₀.specs rows).perm.symm
  | @handing rows out rest charged h =>
    rw [Sorting.rows, Option.getD_some, List.nil_append, ← h, List.drop_left]

theorem Stage.charged_eq (h : Stage s₀ s x out) (he : s.Exact) :
    s.charged =
      if s₀.countMemory then sizeOfRows ((sortRows s₀.specs x.rows).drop out.length) else 0 := by
  have hcost : s.cost = s₀.cost := by cases h <;> rfl
  rw [he, (h.rows_perm.map s.cost).sum_nat, hcost, sum_cost]

/-! ## What comes out -/

theorem ends_handing (next : σ → Control → Step σ) (h : s.sorted = some rest) (hc : s.reg < c.size)
    (i : σ) :
    EndsWith (fun p => p.1.stepOver next p.2) (fun p d => d.reg p.1.reg) (s, i) c
      (· = .ok rest) := by
  induction rest generalizing s c with
  | nil =>
    have hs (c : Control) : s.stepOver next i c = ⟨.dry, (s, i), c⟩ := by
      rw [stepOver, h]
      rfl
    cases hn : c.needsContinuation with
    | false => exact .dry (hs c) hn rfl
    | true => exact .pause (hs c) hn (.dry (hs c.beginCall) rfl rfl)
  | cons row rest ih =>
    have hs : s.stepOver next i c = ⟨.row,
        ({ s with sorted := some rest, charged := s.charged - s.cost row }, i),
        (c.release (s.cost row)).setReg s.reg row⟩ := by
      rw [stepOver, h]
      rfl
    have hsize : ((c.release (s.cost row)).setReg s.reg row).size = c.size :=
      Control.setReg_size ..
    have hread : ((c.release (s.cost row)).setReg s.reg row).reg s.reg = row :=
      Control.setReg_reg hc row
    refine .row hs (ih rfl (hsize.symm ▸ hc)) (ih rfl (hsize.symm ▸ hc)) fun r hr => ?_
    rw [hr]
    exact congrArg (fun v => Except.ok (v :: rest)) hread

theorem Stage.ends (h : Stage s₀ s x out) (he : x.ended = true) (hc : s₀.reg < c.size)
    (next : σ → Control → Step σ) (i : σ) :
    EndsWith (fun p => p.1.stepOver next p.2) (fun p d => d.reg p.1.reg) (s, i) c
      (· = .ok ((sortRows s₀.specs x.rows).drop out.length)) := by
  have hs : s.sorted = some ((sortRows s₀.specs x.rows).drop out.length) ∧ s.reg = s₀.reg := by
    cases h with
    | reading => cases he
    | @handing rows out rest charged h =>
      rw [← h, List.drop_left]
      exact ⟨rfl, rfl⟩
  exact ends_handing next hs.1 (hs.2.symm ▸ hc) i

/-- Nothing is handed on before the input has ended, and then just what it handed on, stably sorted.
All that is charged at any time is for the rows still to come, and the ledger follows that. -/
theorem course_sorts (hf : s₀.Fresh) (h : Course next s₀ s (i, x) out) :
    StablySorted s₀.specs x.rows (sortRows s₀.specs x.rows) ∧
    (x.ended = false → out = []) ∧
    out <+: sortRows s₀.specs x.rows ∧
    s.charged = (if s₀.countMemory then
      sizeOfRows ((sortRows s₀.specs x.rows).drop out.length) else 0) ∧
    (∀ c : Control, (s.reached next i c).Settles (s.stepOver next i c).control s.charged
      (s.stepOver next i c).state.1.charged) ∧
    (x.ended = true → ∀ c : Control, s₀.reg < c.size →
      EndsWith (fun p => p.1.stepOver next p.2) (fun p d => d.reg p.1.reg) (s, i) c
        (· = .ok ((sortRows s₀.specs x.rows).drop out.length))) := by
  have hstage := h.stage hf
  have hexact := h.exact hf
  refine ⟨sortRows_stable s₀.specs x.rows, fun he => ?_, ?_, hstage.charged_eq hexact,
    fun c => (stepOver_booked next hexact i c).settles, fun he c hc => hstage.ends he hc next i⟩
  · cases hstage with
    | reading => rfl
    | handing => cases he
  · cases hstage with
    | reading => exact List.nil_prefix
    | @handing rows out rest charged h => exact h ▸ List.prefix_append out rest

/-- Three rows come in two calls. The one that is handed on came second, and two that are level are
still to come in their order. -/
theorem course_sorts_threeRows :
    let row (k : Int32) (id : String) : Value := .map [("k", .integer k), ("id", .text id)]
    let s₀ : Sorting :=
      { reg := 1, inputReg := 0, specs := [⟨"k", false, false⟩], countMemory := true }
    let x : Delivery := ⟨[row 2 "a", row 1 "b", row 2 "c"], true⟩
    ∃ s, Course (InputEvent.play 0) s₀ s ([], x) [row 1 "b"] ∧
      s.charged = sizeOfRows [row 2 "a", row 2 "c"] ∧
      EndsWith (fun p => p.1.stepOver (InputEvent.play 0) p.2) (fun p d => d.reg p.1.reg) (s, [])
        (.ofConfig {} 2) (· = .ok [row 2 "a", row 2 "c"]) := by
  intro row s₀ x
  let c : Control := .ofConfig {} 2
  have hc : s₀.reg < c.size := by decide
  have hsorted : sortRows s₀.specs x.rows = [row 1 "b", row 2 "a", row 2 "c"] := by
    have hb := @sortRows_least s₀.specs (row 1 "b") [row 2 "a"] [row 2 "c"] (by decide) (by decide)
    have ha := @sortRows_least s₀.specs (row 2 "a") [] [row 2 "c"] (by decide) (by decide)
    have hc : sortRows s₀.specs [row 2 "c"] = [row 2 "c"] := List.mergeSort_singleton (row 2 "c")
    exact hb.trans (congrArg (row 1 "b" :: ·) (ha.trans (congrArg (row 2 "a" :: ·) hc)))
  let input : List InputEvent :=
    [.row ⟨row 2 "a", [], id⟩, .pause, .row ⟨row 1 "b", [], id⟩, .row ⟨row 2 "c", [], id⟩]
  have h₁ : Course (InputEvent.play 0) s₀ { s₀ with arrived := [row 2 "a"], charged := 100 }
      (input.drop 1, ⟨[row 2 "a"], false⟩) [] :=
    @Course.step _ _ _ _ _ _ _ _ c _ .more (.start input) hc rfl nofun
  have h₂ : Course (InputEvent.play 0) s₀ { s₀ with arrived := [row 2 "a"], charged := 100 }
      (input.drop 2, ⟨[row 2 "a"], false⟩) [] :=
    @Course.step _ _ _ _ _ _ _ _ c _ .dry h₁ hc rfl nofun
  have h₃ : Course (InputEvent.play 0) s₀
      { s₀ with arrived := [row 1 "b", row 2 "a"], charged := 200 }
      (input.drop 3, ⟨[row 2 "a", row 1 "b"], false⟩) [] :=
    @Course.step _ _ _ _ _ _ _ _ c _ .more h₂ hc rfl nofun
  have h₄ : Course (InputEvent.play 0) s₀
      { s₀ with arrived := [row 2 "c", row 1 "b", row 2 "a"], charged := 300 }
      ([], ⟨x.rows, false⟩) [] :=
    @Course.step _ _ _ _ _ _ _ _ c _ .more h₃ hc rfl nofun
  have h₅ : Course (InputEvent.play 0) s₀
      { s₀ with sorted := some (sortRows s₀.specs x.rows), charged := 300 } ([], x) [] :=
    @Course.step _ _ _ _ _ _ _ _ c _ .more h₄ hc rfl nofun
  rw [hsorted] at h₅
  have h₆ : Course (InputEvent.play 0) s₀
      { s₀ with sorted := some [row 2 "a", row 2 "c"], charged := 200 } ([], x) [row 1 "b"] :=
    @Course.step _ _ _ _ _ _ _ _ c _ .row h₅ hc rfl nofun
  obtain ⟨-, -, -, hcharged, -, hends⟩ := course_sorts ⟨rfl, rfl, rfl⟩ h₆
  rw [hsorted] at hcharged hends
  exact ⟨_, h₆, hcharged, hends rfl c hc⟩

end Sorting
end ShardQuery
