import ShardQuery.Proofs.Operator.Arrivals
import ShardQuery.Proofs.Operator.Books

/-!
Offset and limit drop and take: what a select step yields within bounds is a part of what it yields
without them, wherever the calls of its input end.
-/

namespace ShardQuery

/-! ## The part of the rows -/

namespace Bounds

variable {α : Type} {b : Bounds} {n : Nat} {v : α} {rows : List α}

/-- The rows that are let through. -/
def window (b : Bounds) (rows : List α) : List α :=
  match b.limit with
  | none => rows.drop b.offset
  | some l => (rows.drop b.offset).take l

/-- The same when there were so many rows before. -/
def rest (b : Bounds) (n : Nat) (rows : List α) : List α :=
  match b.limit with
  | none => rows.drop (b.offset - n)
  | some l => (rows.drop (b.offset - n)).take (l - (n - b.offset))

theorem rest_zero (b : Bounds) (rows : List α) : b.rest 0 rows = b.window rows := by
  simp only [rest, window, Nat.sub_zero, Nat.zero_sub]

theorem rest_nil (b : Bounds) (n : Nat) : b.rest n ([] : List α) = [] := by
  unfold rest
  split <;> simp

theorem rest_reached (h : b.reached (n - b.offset) = true) : b.rest n rows = [] := by
  unfold reached at h
  unfold rest
  cases hl : b.limit with
  | none =>
    rw [hl] at h
    cases h
  | some l =>
    rw [hl, Option.any_some, decide_eq_true_eq] at h
    simp only [Nat.sub_eq_zero_of_le h, List.take_zero]

theorem rest_skip (hn : n < b.offset) : b.rest n (v :: rows) = b.rest (n + 1) rows := by
  have hd : b.offset - n = b.offset - (n + 1) + 1 := by omega
  have hp : n - b.offset = n + 1 - b.offset := by omega
  unfold rest
  rw [hd, List.drop_succ_cons, hp]

theorem rest_pass (h : ¬b.reached (n - b.offset) = true) (hn : ¬n < b.offset) :
    b.rest n (v :: rows) = v :: b.rest (n + 1) rows := by
  have hd : b.offset - n = 0 := by omega
  have hd' : b.offset - (n + 1) = 0 := by omega
  unfold reached at h
  unfold rest
  cases hl : b.limit with
  | none => simp only [hd, hd', List.drop_zero]
  | some l =>
    rw [hl, Option.any_some, decide_eq_true_eq] at h
    have hp : l - (n - b.offset) = l - (n + 1 - b.offset) + 1 := by omega
    simp only [hd, hd', hp, List.drop_zero, List.take_succ_cons]

end Bounds

namespace Control.Alike

variable {P : Nat → Prop} {c d e : Control}

theorem symm (h : c.Alike P d) : d.Alike P c :=
  ⟨h.externals.symm, h.ledger.symm, h.registers.length.symm,
    fun r hr => (h.registers.read r hr).symm⟩

theorem trans (h : c.Alike P d) (h' : d.Alike P e) : c.Alike P e :=
  ⟨h.externals.trans h'.externals, h.ledger.trans h'.ledger, h.registers.trans h'.registers⟩

theorem beginCall (h : c.Alike P d) : c.Alike P d.beginCall := ⟨h.externals, h.ledger, h.registers⟩

end Control.Alike

namespace Selection

/-! ## Inputs without what lies between the rows -/

section
variable {s : Selection} {offset limit : Option Scalar} {b : Bounds} {n : Nat}
  {t : List InputEvent} {a : InputRow} {as : List InputRow} {P : Nat → Prop}

/-- Whatever is before the next row leaves the selection and what it sees as they were. -/
theorem yields_next (ht : InputEvent.rows t = a :: as) (c : Control) :
    ∃ u d, InputEvent.rows u = as ∧ c.Alike P d ∧ ∀ rows,
      (s.windowed (.after offset limit b n)).Yields t c rows ↔
        (s.windowed (.after offset limit b n)).Yields (.row a :: u) d rows := by
  induction t generalizing c with
  | nil => cases ht
  | cons e rest ih =>
    cases e with
    | row a' =>
      cases ht
      exact ⟨rest, c, rfl, .refl P c, fun _ => .rfl⟩
    | more =>
      obtain ⟨u, d, hu, hd, hy⟩ := ih ht c
      exact ⟨u, d, hu, hd, fun rows => yields_more.trans (hy rows)⟩
    | pause =>
      obtain ⟨u, d, hu, hd, hy⟩ := ih ht c.suspend.beginCall
      exact ⟨u, d, hu, ⟨hd.externals, hd.ledger, hd.registers⟩,
        fun rows => yields_pause.trans (hy rows)⟩

/-- Whatever is after the last row leaves the selection and what it sees as they were. -/
theorem yields_last (ht : InputEvent.rows t = []) (c : Control) :
    ∃ d, d.needsContinuation = false ∧ c.Alike P d ∧ ∀ rows,
      (s.windowed (.after offset limit b n)).Yields t c rows ↔
        (s.windowed (.after offset limit b n)).Yields [] d rows := by
  induction t generalizing c with
  | nil =>
    cases hc : c.needsContinuation with
    | false => exact ⟨c, hc, .refl P c, fun _ => .rfl⟩
    | true =>
      exact ⟨c.beginCall, rfl, (Control.Alike.refl P c).beginCall, fun _ => yields_suspended hc⟩
  | cons e rest ih =>
    cases e with
    | row a' => cases ht
    | more =>
      obtain ⟨d, hf, hd, hy⟩ := ih ht c
      exact ⟨d, hf, hd, fun rows => yields_more.trans (hy rows)⟩
    | pause =>
      obtain ⟨d, hf, hd, hy⟩ := ih ht c.suspend.beginCall
      exact ⟨d, hf, ⟨hd.externals, hd.ledger, hd.registers⟩,
        fun rows => yields_pause.trans (hy rows)⟩

end

/-! ## The run within bounds and the run without -/

section
variable {P : Nat → Prop} {c d : Control}

theorem completed_alongside (s : Selection) (key : List Value) (h : c.Alike P d) :
    Alongside P (s.completed key c) (s.completed key d) := by
  obtain ⟨d', hd, he⟩ := s.finishGroup_alongside key h
  simp only [completed, he]
  generalize s.finishGroup key c = m at hd ⊢
  rcases m with ⟨_ | row, p, c'⟩ <;> exact ⟨d', hd, rfl⟩

theorem ended_alongside (s : Selection) (h : c.Alike P d) :
    Alongside P (s.ended c) (s.ended d) := by
  unfold ended
  split
  · exact ⟨d, h, rfl⟩
  · exact s.between.completed_alongside _ h
  · split
    · exact s.completed_alongside [] h
    · exact ⟨d, h, rfl⟩

/-- Only a group that there is makes a row at the end, or no input at all. -/
theorem ended_row {s : Selection} {row : Value} (h : (s.ended c).1 = .ok (some row)) :
    s.current.isSome = true ∨ s.grouping = some 0 ∧ s.sawInput = false := by
  unfold ended at h
  split at h
  · cases h
  · rename_i hcur
    exact .inl (by rw [hcur]; rfl)
  · split at h
    · rename_i gb hg _ h0
      simp only [Bool.and_eq_true, decide_eq_true_eq, Bool.not_eq_true'] at h0
      exact .inr ⟨h0.1 ▸ hg, h0.2⟩
    · cases h

/-- A row in the register of its select step is the same in both controls. -/
theorem reg_setReg (h : c.Alike P d) (reg : Nat) (v : Value) :
    (c.setReg reg v).reg reg = (d.setReg reg v).reg reg :=
  (h.registers.set reg v).read reg (.inr rfl)

end

/-- At the end comes one row at most. Within bounds it is the same one or none. -/
theorem yields_ended {P : Nat → Prop} (offset limit : Option Scalar) (b : Bounds) {s : Selection}
    {n : Nat} {c d : Control} {t u : List InputEvent} {rows : List Value}
    (ht : InputEvent.rows t = []) (hu : InputEvent.rows u = [])
    (hcur : s.current.isSome = true → s.sawInput = true) (h : c.Alike P d)
    (hy : (s.windowed (.after none none ⟨0, none⟩ n)).Yields t c rows) :
    (rows = [] ∨ ∃ v, rows = [v] ∧
      (s.current.isSome = true ∨ s.grouping = some 0 ∧ s.sawInput = false)) ∧
    (s.windowed (.after offset limit b n)).Yields u d
      (if b.reached (n - b.offset) = true ∨ n < b.offset ∧ s.current.isSome = true then []
      else rows) := by
  obtain ⟨c', hc, hcc, hyc⟩ := yields_last (P := P) ht c
  obtain ⟨d', hd, hdd, hyd⟩ := yields_last (P := P) hu d
  obtain ⟨d₁, hd₁, he⟩ := s.ended_alongside (hcc.symm.trans (h.trans hdd))
  have hrow := @ended_row c' s
  have hwithin (hl : ¬b.reached (n - b.offset) = true) (result : List Value) :=
    @yields_end s offset limit b n d' result hl hd hcur
  rw [he] at hwithin
  replace hy := (hyc rows).1 hy
  rw [yields_end (by simp [Bounds.reached]) hc hcur] at hy
  rw [hyd]
  generalize s.ended c' = m at hy hd₁ hrow hwithin
  rcases m with ⟨_ | _ | row, p, c₁⟩
  · exact hy.elim
  · refine ⟨.inl hy, ?_⟩
    rw [hy, ite_self]
    by_cases hl : b.reached (n - b.offset) = true
    · rw [yields_reached hl]
    · exact (hwithin hl []).2 rfl
  · replace hd₁ : c₁.Alike P d₁ := hd₁
    have hrows : rows = [(c₁.setReg p.reg row).reg p.reg] := by simpa using hy
    refine ⟨.inr ⟨_, hrows, hrow rfl⟩, ?_⟩
    by_cases hl : b.reached (n - b.offset) = true
    · rw [if_pos (.inl hl), yields_reached hl]
    · rw [hwithin hl]
      simp only [Carries.onControl, hl, Bool.false_eq_true, false_or]
      split
      · rfl
      · rw [hrows, reg_setReg hd₁]

/-- A selection that reads nothing but its input and the registers told, which are not for its own
rows, and that has a group only if it has seen a row. -/
structure SeesOnly (P : Nat → Prop) (s : Selection) : Prop where
  reads : ∀ r ∈ s.reads, P r ∨ r = s.sourceReg
  reg : ¬P s.reg
  begun : s.current.isSome = true → s.sawInput = true

theorem SeesOnly.made {P : Nat → Prop} {s : Selection} (h : SeesOnly P s) (c : Control) :
    SeesOnly P (s.made c).2.1 where
  reads := by
    rw [(s.made_continues c).reads_eq, (s.made_continues c).sourceReg]
    exact h.reads
  reg := by
    rw [(s.made_continues c).reg]
    exact h.reg
  begun := s.made_begun c h.begun

theorem made_seen (s : Selection) (c : Control) (hg : (s.made c).2.1.grouping = some 0) :
    (s.made c).2.1.sawInput = true := by
  rw [(s.made_continues c).grouping] at hg
  exact s.made_sawInput c (by rw [hg]; rfl)

/-- What a select step without bounds has for the next input row or for the end goes the same way
within bounds, but for the rows that are left out. The induction is on the rows that the input still
has; `n` rows were made of those before. -/
theorem yields_rest {P : Nat → Prop} {offset limit : Option Scalar} {b : Bounds}
    {as : List InputRow} {s : Selection} {n : Nat} {c d : Control} {t u : List InputEvent}
    {rows : List Value} (ht : InputEvent.rows t = as) (hu : InputEvent.rows u = as)
    (hs : SeesOnly P s) (hsaw : s.grouping = some 0 → s.sawInput = true ∨ as ≠ [])
    (h : c.Alike P d) (hy : (s.windowed (.after none none ⟨0, none⟩ n)).Yields t c rows) :
    (s.windowed (.after offset limit b n)).Yields u d (b.rest n rows) := by
  induction as generalizing s n c d t u rows with
  | nil =>
    obtain ⟨rfl | ⟨v, rfl, hv⟩, hwithin⟩ := yields_ended offset limit b ht hu hs.begun h hy
    · rw [ite_self] at hwithin
      rwa [Bounds.rest_nil]
    · have hsome : s.current.isSome = true := by
        refine hv.resolve_right fun h0 => ?_
        exact (hsaw h0.1).elim (fun h1 => by simp [h0.2] at h1) (· rfl)
      by_cases hl : b.reached (n - b.offset) = true
      · rw [if_pos (.inl hl)] at hwithin
        rwa [Bounds.rest_reached hl]
      · by_cases hn : n < b.offset
        · rw [if_pos (.inr ⟨hn, hsome⟩)] at hwithin
          rwa [Bounds.rest_skip hn, Bounds.rest_nil]
        · rw [if_neg (not_or.2 ⟨hl, fun h0 => hn h0.1⟩)] at hwithin
          rwa [Bounds.rest_pass hl hn, Bounds.rest_nil]
  | cons a as ih =>
    obtain ⟨t', c', ht', hcc, hyc⟩ := yields_next (P := P) ht c
    obtain ⟨u', d', hu', hdd, hyd⟩ := yields_next (P := P) hu d
    replace hy := (hyc rows).1 hy
    rw [hyd]
    by_cases hl : b.reached (n - b.offset) = true
    · rw [yields_reached hl, Bounds.rest_reached hl]
    · rw [yields_row (by simp [Bounds.reached])] at hy
      rw [yields_row hl]
      have harr := Agree.arrive (hcc.symm.trans (h.trans hdd)) s.sourceReg a
      obtain ⟨d₁, hd₁, he⟩ := s.made_alongside harr hs.reads (.inr rfl)
      have hp := hs.made (c'.arrive s.sourceReg a)
      have hseen := s.made_seen (c'.arrive s.sourceReg a)
      rw [he]
      generalize s.made (c'.arrive s.sourceReg a) = m at hy hd₁ hp hseen
      rcases m with ⟨_ | made, p, c₁⟩
      · exact hy.elim
      replace hd₁ : c₁.Alike P d₁ := hd₁.mono fun _ => .inl
      replace hseen : p.grouping = some 0 → p.sawInput = true ∨ as ≠ [] := fun hg => .inl (hseen hg)
      cases made with
      | none => exact ih ht' hu' hp hseen hd₁ hy
      | some row =>
        simp only [Passes, Nat.not_lt_zero, ↓reduceIte] at hy
        obtain ⟨rest, rfl, hrest⟩ := hy
        simp only [Passes, Carries.onControl]
        split
        · rename_i hn
          rw [Bounds.rest_skip hn]
          have hd₂ : (c₁.setReg p.reg row).Alike P d₁ :=
            ⟨hd₁.externals, hd₁.ledger, hd₁.registers.set_left hp.reg row⟩
          exact ih ht' hu' hp hseen hd₂ hrest
        · rename_i hn
          rw [Bounds.rest_pass hl hn, reg_setReg hd₁]
          have hd₂ : (c₁.setReg p.reg row).Alike P (d₁.setReg p.reg row) :=
            ⟨hd₁.externals, hd₁.ledger, hd₁.registers.set_same p.reg row⟩
          exact ⟨_, rfl, ih ht' hu' hp hseen hd₂ hrest⟩

/-- Aggregates over no rows at all make a row that no offset leaves out. -/
theorem yields_none {P : Nat → Prop} {offset limit : Option Scalar} {b : Bounds} {s : Selection}
    {c d : Control} {t u : List InputEvent} {rows : List Value} (ht : InputEvent.rows t = [])
    (hu : InputEvent.rows u = []) (hcur : s.current = none) (h : c.Alike P d)
    (hy : (s.windowed (.after none none ⟨0, none⟩ 0)).Yields t c rows) :
    (s.windowed (.after offset limit b 0)).Yields u d ({ b with offset := 0 }.window rows) := by
  have hbegun : s.current.isSome = true → s.sawInput = true := by simp [hcur]
  have hreached : b.reached (0 - b.offset) = { b with offset := 0 }.reached (0 - 0) := by
    rw [Nat.zero_sub, Nat.zero_sub]
    rfl
  obtain ⟨hrows, hwithin⟩ := yields_ended offset limit b ht hu hbegun h hy
  simp only [hcur, Option.isSome_none, Bool.false_eq_true, and_false, or_false, hreached] at hwithin
  rw [← Bounds.rest_zero]
  split at hwithin
  · rename_i hl
    rwa [Bounds.rest_reached hl]
  · rename_i hl
    obtain rfl | ⟨v, rfl, -⟩ := hrows
    · rwa [Bounds.rest_nil]
    · rwa [Bounds.rest_pass hl (Nat.not_lt_zero 0), Bounds.rest_nil]

/-! ## The beginning -/

/-- A selection that has not been asked for a row. -/
structure Fresh (s : Selection) : Prop where
  bounds : s.bounds = none
  skipped : s.skipped = 0
  produced : s.produced = 0
  current : s.current = none
  sawInput : s.sawInput = false
  finished : s.finished = false

/-- The select steps of a plan are made fresh. -/
theorem fresh_of_ofStep {shards : List Int} {step : PlanStep} {s : Selection} {input : Operator}
    (h : Operator.ofStep shards step = .ok (.select s input)) : s.Fresh := by
  cases step with
  | select reg source info columns offset limit =>
    simp only [Operator.ofStep, bind, Except.bind, pure, Except.pure] at h
    repeat' split at h
    all_goals cases h
    exact ⟨rfl, rfl, rfl, rfl, rfl, rfl⟩
  | group reg inner info =>
    simp only [Operator.ofStep, bind, Except.bind, pure, Except.pure] at h
    repeat' split at h
    all_goals cases h
  | sort reg inner specs countMemory =>
    simp only [Operator.ofStep, bind, Except.bind, pure, Except.pure] at h
    repeat' split at h
    all_goals cases h
  | receive reg info =>
    simp only [Operator.ofStep, bind, Except.bind, pure, Except.pure] at h
    split at h <;> cases h
  | _ => cases h

/-- The same step without offset and limit. -/
def unbounded (s : Selection) : Selection := { s with offset := none, limit := none }

/-- The registers that offset and limit put values into. -/
def boundWrites (s : Selection) : List Nat :=
  (s.offset.toList ++ s.limit.toList).flatMap Scalar.writes

/-- The columns read no variable from a register that is for the rows of the step itself or for
its offset and limit. -/
def Apart (s : Selection) : Prop :=
  ∀ r ∈ s.reads, r = s.sourceReg ∨ r ≠ s.reg ∧ r ∉ s.boundWrites

theorem evalBound_alike (clause : String) (bound : Option Scalar) (c : Control) :
    (evalBound clause bound c).2.Alike (· ∉ bound.toList.flatMap Scalar.writes) c := by
  cases bound with
  | none => exact .refl _ c
  | some e =>
    have h : (e.run c).2.Alike (· ∉ (some e).toList.flatMap Scalar.writes) c :=
      ⟨rfl, rfl, (e.eval_frame c.registers).mono fun r hr => by simpa using hr⟩
    simp only [evalBound]
    generalize e.run c = x at h
    rcases x with ⟨_ | _ | _, d⟩
    · exact h
    · exact h
    · simp only
      split
      · split <;> exact h
      · exact h

theorem evalBounds_alike (s : Selection) (c : Control) :
    (s.evalBounds c).2.Alike (· ∉ s.boundWrites) c := by
  have hsplit {r : Nat} (hr : r ∉ s.boundWrites) :
      r ∉ s.offset.toList.flatMap Scalar.writes ∧ r ∉ s.limit.toList.flatMap Scalar.writes := by
    rwa [boundWrites, List.flatMap_append, List.mem_append, not_or] at hr
  unfold evalBounds
  split
  · exact .refl _ c
  · have ho := (evalBound_alike "OFFSET" s.offset c).mono
      (Q := (· ∉ s.boundWrites)) fun r hr => (hsplit hr).1
    generalize evalBound "OFFSET" s.offset c = x at ho
    rcases x with ⟨_ | o, d⟩
    · exact ho
    · have hl := (evalBound_alike "LIMIT" s.limit d).mono
        (Q := (· ∉ s.boundWrites)) fun r hr => (hsplit hr).2
      simp only
      generalize evalBound "LIMIT" s.limit d = x at hl
      rcases x with ⟨_ | l, e⟩ <;> exact hl.trans ho

/-- The first step of a selection is that of one whose bounds are known. -/
theorem stepOn_begin {s : Selection} (hf : s.Fresh) {b : Bounds} {c d : Control}
    (hb : s.evalBounds c = (.ok b, d)) (t : List InputEvent) :
    s.stepOn t c = (s.windowed (.after s.offset s.limit b 0)).stepOn t d := by
  have hw : { s with bounds := some b } = s.windowed (.after s.offset s.limit b 0) := by
    simp [windowed, Window.after, hf.skipped, hf.produced, hf.finished]
  have hp : s.produced = 0 - b.offset := by rw [hf.produced, Nat.zero_sub]
  have hbegin : s.begin c = (s.windowed (.after s.offset s.limit b 0)).begin d := by
    have hn : ¬s.finished = true := by simp [hf.finished]
    rw [begin_after, begin, if_neg hn, hb, ← hw, ← hp]
  simp only [stepOn, stepOver, hbegin]
  rfl

theorem yields_begin {s : Selection} (hf : s.Fresh) {b : Bounds} {c d : Control}
    (hb : s.evalBounds c = (.ok b, d)) {t : List InputEvent} {rows : List Value} :
    s.Yields t c rows ↔ (s.windowed (.after s.offset s.limit b 0)).Yields t d rows := by
  rw [yields_iff, yields_iff, stepOn_begin hf hb]

/-- The bounds that hold for an input: no offset leaves out the row of aggregates over no rows at
all. -/
def boundsOver (s : Selection) (b : Bounds) (t : List InputEvent) : Bounds :=
  if s.grouping = some 0 ∧ InputEvent.rows t = [] then { b with offset := 0 } else b

/-- Offset and limit drop and take, but for aggregates over no rows at all: a step whose unbounded
run goes through yields that part of its rows, and nothing else. The input may spread the same rows
over calls in another way. -/
theorem yields_window {s : Selection} (hf : s.Fresh) (ha : s.Apart) {c : Control} {b : Bounds}
    (hb : (s.evalBounds c).1 = .ok b) {t u : List InputEvent} {rows : List Value}
    (htu : InputEvent.rows u = InputEvent.rows t) (hy : s.unbounded.Yields t c rows)
    (result : List Value) :
    s.Yields u c result ↔ result = (s.boundsOver b t).window rows := by
  have hd := s.evalBounds_alike c
  obtain ⟨d, he⟩ : ∃ d, s.evalBounds c = (.ok b, d) := ⟨_, Prod.ext hb rfl⟩
  rw [he] at hd
  have hu : s.unbounded.evalBounds c = (.ok ⟨0, none⟩, c) := by
    simp only [evalBounds, unbounded, hf.bounds, evalBound, Option.getD_none]
  have hfu : s.unbounded.Fresh := { hf with }
  have hrun := (yields_begin hfu hu).1 hy
  let P (r : Nat) : Prop := r ≠ s.reg ∧ r ∉ s.boundWrites
  have hcd : c.Alike P d := (hd.mono fun r hr => hr.2).symm
  have hwin : s.Yields u c ((s.boundsOver b t).window rows) := by
    rw [yields_begin hf he, boundsOver]
    split
    · rename_i h0
      exact yields_none h0.2 (htu.trans h0.2) hf.current hcd hrun
    · rename_i h0
      rw [← Bounds.rest_zero]
      have hs : SeesOnly P s :=
        ⟨fun r hr => (ha r hr).symm, fun h => h.1 rfl, by simp [hf.current]⟩
      exact yields_rest rfl htu hs (fun hg => .inr fun ht => h0 ⟨hg, ht⟩) hcd hrun
  exact ⟨fun h => h.unique hwin, fun h => h ▸ hwin⟩

/-- Three rows, with offset 1 and limit 1, over two calls or over one. -/
theorem yields_window_threeRows :
    let s : Selection :=
      { reg := 1, sourceReg := 0, columns := [], aggregates := [], names := [], grouping := none
        star := true, offset := some (.const 2 (.integer 1)), limit := some (.const 3 (.long 1)) }
    let row (n : Int32) : InputEvent := .row { row := .integer n }
    let c := Control.ofConfig {} 4
    s.Fresh ∧ s.Apart ∧
      s.unbounded.Yields [row 10, .pause, row 20, row 30] c
        [.integer 10, .integer 20, .integer 30] ∧
      s.Yields [row 10, row 20, .more, row 30] c [.integer 20] := by
  intro s row c
  have hf : s.Fresh := ⟨rfl, rfl, rfl, rfl, rfl, rfl⟩
  have ha : s.Apart := by
    intro r hr
    cases hr
  have hy : s.unbounded.Yields [row 10, .pause, row 20, row 30] c
      [.integer 10, .integer 20, .integer 30] := by
    refine yields_iff.2 (Exists.intro _ ⟨rfl, ?_⟩)
    refine .pause rfl rfl ?_
    refine yields_iff.2 (Exists.intro _ ⟨rfl, ?_⟩)
    refine yields_iff.2 (Exists.intro _ ⟨rfl, ?_⟩)
    exact .dry rfl rfl
  have hb : (s.evalBounds c).1 = .ok ⟨1, some 1⟩ := rfl
  have htu : InputEvent.rows [row 10, row 20, .more, row 30] =
      InputEvent.rows [row 10, .pause, row 20, row 30] := rfl
  exact ⟨hf, ha, hy, (yields_window hf ha hb htu hy [.integer 20]).2 rfl⟩

/-- The row of a count of no rows comes out in spite of an offset of 1. -/
theorem yields_empty_count :
    let s : Selection :=
      { reg := 1, sourceReg := 0, columns := [], names := ["n"], grouping := some 0, star := false
        aggregates := [.aggregate 2 none (.ofFunc .countStar)]
        offset := some (.const 3 (.integer 1)), limit := none }
    let c := Control.ofConfig {} 4
    let row := Value.map [("n", .long 0)]
    (s.evalBounds c).1 = .ok ⟨1, none⟩ ∧ s.unbounded.Yields [] c [row] ∧ s.Yields [] c [row] ∧
      ¬s.Yields [] c ([row].drop 1) := by
  intro s c row
  have hu : s.unbounded.Yields [] c [row] := yields_iff.2 (Exists.intro _ ⟨rfl, .dry rfl rfl⟩)
  have hy : s.Yields [] c [row] := yields_iff.2 (Exists.intro _ ⟨rfl, .dry rfl rfl⟩)
  refine ⟨rfl, hu, hy, fun h => ?_⟩
  cases h.unique hy

end Selection
end ShardQuery
