import Mathlib
import ShardQuery.Proofs.Operator.Window
import ShardQuery.Proofs.Value.Runs

/-!
A select step that groups makes a row of each run of input rows with one grouping tuple, so that of
sorted rows each group makes one row.
-/

namespace ShardQuery

/-! ## Grouping columns -/

/-- A grouping column: the register of its result, with the field that it reads of the input row. -/
def fieldColumn (source : Nat) (f : Nat × String) : Column :=
  .scalar (.field f.1 (.var source) f.2)

/-- The row of a group: the grouping tuple, and after it the results of the aggregates. -/
def RowOfGroup (names : List String) (key : List Value) (out : Value) : Prop :=
  ∃ results, out = .map (Record.ofFields (names.zip (key ++ results)))

theorem zip_append_eq (names : List String) (key results : List Value) :
    names.zip (key ++ results) = names.zip key ++ (names.drop key.length).zip results := by
  induction key generalizing names with
  | nil => simp
  | cons k key ih =>
    cases names with
    | nil => simp
    | cons name names => simp [ih]

section
variable {c : Control} {source : Nat} {r : Record}

theorem fieldColumn_read {f : Nat × String} (hf : f.1 < c.size) (hs : c.reg source = .map r) :
    ((fieldColumn source f).read c).1 = .ok ((Value.map r).field f.2).orNull := by
  have hs' : readRegister c.registers source = .map r := hs
  simp only [fieldColumn, Column.read, Column.run, Scalar.run, Scalar.eval, Scalar.reg, hs',
    Scalar.fieldOf, Value.field, Value.record?, Option.bind_some]
  cases r.get? f.2 with
  | none => rfl
  | some v =>
    by_cases hv : v = .empty
    · rw [hv]
      rfl
    · have he : v.isEmpty = false := by cases v <;> first | rfl | exact (hv rfl).elim
      simp only [Option.filter_some, he, Bool.not_false, ↓reduceIte, Option.getD_some,
        Value.orNull_of_ne hv, Control.reg]
      rw [readRegister_set, if_pos ⟨rfl, hf⟩]

theorem fieldColumn_source {f : Nat × String} (hf : f.1 ≠ source) :
    ((fieldColumn source f).read c).2.reg source = c.reg source := by
  have h : source ∉ (Scalar.field f.1 (.var source) f.2).writes :=
    fun h => hf (List.mem_singleton.1 h).symm
  have hrun : ((fieldColumn source f).run c).2.reg source = c.reg source :=
    (@Scalar.eval_frame c.externals _ c.registers).read source h
  unfold Column.read
  split <;> rename_i hr <;> rw [hr] at hrun <;> exact hrun

theorem readColumns_fields {fields : List (Nat × String)} {c : Control}
    (hf : ∀ f ∈ fields, f.1 < c.size ∧ f.1 ≠ source) (hs : c.reg source = .map r) :
    (Selection.readColumns (fields.map (fieldColumn source)) c).1 =
      .ok (groupTuple (fields.map (·.2)) (.map r)) := by
  induction fields generalizing c with
  | nil => rfl
  | cons f rest ih =>
    obtain ⟨hf, hrest⟩ := List.forall_mem_cons.1 hf
    have hv := fieldColumn_read hf.1 hs
    have hd := (fieldColumn_source (c := c) hf.2).trans hs
    have hsize := (fieldColumn source f).read_size c
    simp only [List.map_cons, Selection.readColumns]
    generalize (fieldColumn source f).read c = x at hv hd hsize
    obtain ⟨_, d⟩ := x
    cases hv
    have htail := ih (c := d) (by rwa [hsize]) hd
    simp only
    generalize Selection.readColumns (rest.map (fieldColumn source)) d = y at htail
    obtain ⟨_, e⟩ := y
    cases htail
    rfl

end

namespace Selection

/-- A select step that groups by fields of its input rows, with so many registers. -/
structure GroupsBy (s : Selection) (fields : List (Nat × String)) (size : Nat) : Prop where
  columns : s.columns = fields.map (fieldColumn s.sourceReg)
  grouping : s.grouping = some fields.length
  nonempty : fields ≠ []
  source : s.sourceReg < size
  row : s.reg < size
  results : ∀ f ∈ fields, f.1 < size ∧ f.1 ≠ s.sourceReg

theorem GroupsBy.continues {s p : Selection} {fields : List (Nat × String)} {size : Nat}
    (hg : s.GroupsBy fields size) (h : s.Continues p) : p.GroupsBy fields size where
  columns := by rw [h.columns, h.sourceReg, hg.columns]
  grouping := h.grouping.trans hg.grouping
  nonempty := hg.nonempty
  source := h.sourceReg ▸ hg.source
  row := h.reg ▸ hg.row
  results := h.sourceReg ▸ hg.results

/-- The step of a plan that reads a field of the input row. -/
def fieldStep (source : Nat) (row : String) (f : Nat × String) : PlanStep :=
  .field f.1 (.varRef source row) f.2

theorem mapM_fieldStep (source : Nat) (row : String) (fields : List (Nat × String)) :
    (fields.map (fieldStep source row)).mapM Column.ofStep =
      .ok (fields.map (fieldColumn source)) := by
  induction fields with
  | nil => rfl
  | cons f rest ih =>
    rw [List.map_cons, List.mapM_cons, ih]
    rfl

/-! ## One row -/

theorem takeResults_zip {names : List String} {cols cols' : List Column}
    {results : List (String × Value)} (h : takeResults names cols = .ok (results, cols')) :
    ∃ values, results = names.zip values := by
  induction cols generalizing names results cols' with
  | nil => cases names <;> cases h <;> exact ⟨[], List.zip_nil_right.symm⟩
  | cons col rest ih =>
    cases names with
    | nil =>
      cases h
      exact ⟨[], rfl⟩
    | cons name names =>
      obtain ⟨v, n, taken, more, cols, -, hr, rfl, rfl⟩ := takeResults_cons h
      obtain ⟨values, rfl⟩ := ih hr
      exact ⟨v :: values, rfl⟩

section
variable {s : Selection} {c : Control} {fields : List (Nat × String)}

theorem finishGroup_row {key : List Value} {out : Value}
    (h : (s.finishGroup key c).1 = .ok out) : RowOfGroup s.names key out := by
  unfold finishGroup at h
  cases ht : takeResults (s.names.drop key.length) s.aggregates with
  | error e =>
    rw [ht] at h
    cases h
  | ok taken =>
    obtain ⟨results, cols⟩ := taken
    obtain ⟨values, rfl⟩ := takeResults_zip ht
    rw [ht] at h
    cases h
    exact ⟨values, by rw [zip_append_eq]⟩

theorem folded_made {completed made : Option Value} (h : (s.folded completed c).1 = .ok made) :
    made = completed ∧ (s.folded completed c).2.1.current = s.current := by
  unfold folded at h ⊢
  generalize foldRow s.aggregates s.groupMemory c = x at h ⊢
  rcases x with ⟨_ | e, aggregates, memory, d⟩
  · cases h
    exact ⟨rfl, rfl⟩
  · cases h

/-- What comes out when a row with a tuple is taken in: nothing as long as it stays in the group
that has begun, else the row of that group. -/
def Completes (names : List String) (key : List Value) (before after : Option (List Value)) :
    Option Value → Prop
  | none => ∀ keys, groupKeys before (key :: keys) = groupKeys after keys
  | some out => ∃ k, RowOfGroup names k out ∧
      ∀ keys, groupKeys before (key :: keys) = k :: groupKeys after keys

theorem keyed_completes {key : List Value} {made : Option Value}
    (h : (s.keyed key c).1 = .ok made) :
    Completes s.names key s.current (s.keyed key c).2.1.current made := by
  unfold keyed at h ⊢
  cases hc : s.current with
  | none =>
    rw [hc] at h
    obtain ⟨rfl, hcur⟩ := folded_made h
    simp only [hcur]
    exact fun _ => rfl
  | some k =>
    rw [hc] at h
    simp only at h ⊢
    by_cases hs : sameGroup k key = true
    · rw [if_pos hs] at h ⊢
      obtain ⟨rfl, hcur⟩ := folded_made h
      rw [hcur, hc]
      exact fun _ => by rw [groupKeys, if_pos hs]
    · rw [if_neg hs] at h ⊢
      have hrow := @finishGroup_row { s with current := none } c k
      generalize finishGroup { s with current := none } k c = x at h hrow
      rcases x with ⟨_ | out, p, d⟩
      · cases h
      · obtain ⟨rfl, hcur⟩ := folded_made h
        simp only [hcur]
        exact ⟨k, hrow rfl, fun _ => by rw [groupKeys, if_neg hs]⟩

theorem made_completes (hg : s.GroupsBy fields c.size) {r : Record}
    (hr : c.reg s.sourceReg = .map r) {made : Option Value} (h : (s.made c).1 = .ok made) :
    Completes s.names (groupTuple (fields.map (·.2)) (.map r)) s.current
      (s.made c).2.1.current made := by
  have hkey := readColumns_fields hg.results hr
  rw [← hg.columns] at hkey
  unfold Selection.made at h ⊢
  rw [if_pos (by rw [hg.grouping]; rfl)] at h ⊢
  unfold grouped at h ⊢
  generalize readColumns s.columns c = x at hkey h ⊢
  obtain ⟨_, d⟩ := x
  cases hkey
  exact keyed_completes h

end

/-! ## All rows -/

section
variable {s : Selection} {c : Control} {fields : List (Nat × String)} {offset limit : Option Scalar}
  {b : Bounds} {n : Nat} {rows : List Value}

/-- At the end comes the row of the group that has begun. -/
theorem ended_groups (hg : s.GroupsBy fields c.size) :
    match s.ended c with
    | (.error _, _, _) => True
    | (.ok none, _, _) => s.current = none
    | (.ok (some out), p, d) =>
      p.reg < d.size ∧ ∃ k, s.current = some k ∧ RowOfGroup s.names k out := by
  have h0 : fields.length ≠ 0 := by simpa using hg.nonempty
  unfold ended
  rw [hg.grouping]
  cases hc : s.current with
  | none => simp [h0]
  | some k =>
    have hrow := @finishGroup_row s.between c k
    have hsize := s.between.finishGroup_size c k
    have hcont := s.between.finishGroup_continues c k
    simp only [completed]
    generalize s.between.finishGroup k c = x at hrow hsize hcont
    rcases x with ⟨_ | out, p, d⟩
    · trivial
    · replace hsize : d.size = c.size := hsize
      have hreg : p.reg < d.size := by
        rw [hsize, hcont.reg]
        exact hg.row
      exact ⟨hreg, k, rfl, hrow rfl⟩

theorem yields_lastGroup {t : List InputEvent} (ht : InputEvent.rows t = [])
    (hg : s.GroupsBy fields c.size) (hcur : s.current.isSome = true → s.sawInput = true)
    (hy : (s.windowed (.after offset limit b n)).Yields t c rows) :
    List.Forall₂ (RowOfGroup s.names) (b.rest n (groupKeys s.current [])) rows := by
  obtain ⟨d, hd, hcd, hyd⟩ := yields_last (P := fun _ => False) ht c
  replace hy := (hyd rows).1 hy
  have hsize : c.size = d.size := hcd.registers.length
  rw [hsize] at hg
  by_cases hl : b.reached (n - b.offset) = true
  · rw [(yields_reached hl).1 hy, Bounds.rest_reached hl]
    exact .nil
  · rw [yields_end hl hd hcur] at hy
    have he := ended_groups hg
    generalize s.ended d = m at hy he
    rcases m with ⟨_ | _ | out, p, d'⟩
    · exact hy.elim
    · replace he : s.current = none := he
      rw [hy, he, groupKeys, Bounds.rest_nil]
      exact .nil
    · obtain ⟨hreg, k, hk, hrow⟩ := he
      simp only [hk, Option.isSome_some, and_true, Control.setReg_reg hreg] at hy
      rw [hk, groupKeys]
      split at hy
      · rename_i hn
        rw [hy, Bounds.rest_skip hn, Bounds.rest_nil]
        exact .nil
      · rename_i hn
        rw [hy, Bounds.rest_pass hl hn, Bounds.rest_nil]
        exact .cons hrow .nil

/-- The rows that come out are those of the groups, as far as they are within bounds. The induction
is on the rows that the input still has; `n` groups came out before. -/
theorem yields_groups {as : List InputRow} {t : List InputEvent} (ht : InputEvent.rows t = as)
    (hg : s.GroupsBy fields c.size) (hrec : ∀ a ∈ as, ∃ r, a.row = .map r)
    (hcur : s.current.isSome = true → s.sawInput = true)
    (hy : (s.windowed (.after offset limit b n)).Yields t c rows) :
    List.Forall₂ (RowOfGroup s.names)
      (b.rest n (groupKeys s.current (as.map fun a => groupTuple (fields.map (·.2)) a.row)))
      rows := by
  induction as generalizing s n c t rows with
  | nil => exact yields_lastGroup ht hg hcur hy
  | cons a as ih =>
    obtain ⟨u, d, hu, hcd, hyd⟩ := yields_next (P := fun _ => False) ht c
    replace hy := (hyd rows).1 hy
    obtain ⟨⟨r, hr⟩, hrec⟩ := List.forall_mem_cons.1 hrec
    have hsize : c.size = d.size := hcd.registers.length
    rw [hsize, ← d.arrive_size s.sourceReg a] at hg
    by_cases hl : b.reached (n - b.offset) = true
    · rw [(yields_reached hl).1 hy, Bounds.rest_reached hl]
      exact .nil
    · rw [yields_row hl] at hy
      have hrow := d.arrive_reg (d.arrive_size s.sourceReg a ▸ hg.source) a
      have hmade := @made_completes s _ _ hg r (hrow.trans hr)
      have hbegun := s.made_begun (d.arrive s.sourceReg a) hcur
      have hcont := s.made_continues (d.arrive s.sourceReg a)
      have hsize' := s.made_size (d.arrive s.sourceReg a)
      generalize s.made (d.arrive s.sourceReg a) = m at hy hmade hbegun hcont hsize'
      rcases m with ⟨_ | made, p, d'⟩
      · exact hy.elim
      replace hsize' : d'.size = (d.arrive s.sourceReg a).size := hsize'
      have hp : p.GroupsBy fields d'.size := hsize' ▸ hg.continues hcont
      specialize hmade rfl
      rw [List.map_cons, hr, ← hcont.names]
      cases made with
      | none =>
        rw [hmade]
        exact ih hu hp hrec hbegun hy
      | some out =>
        obtain ⟨k, hk, hkeys⟩ := hmade
        rw [hkeys]
        simp only [Passes, Control.setReg_reg hp.row] at hy
        split at hy
        · rename_i hn
          rw [Bounds.rest_skip hn]
          exact ih hu hp hrec hbegun hy
        · rename_i hn
          obtain ⟨rest, rfl, hrest⟩ := hy
          rw [Bounds.rest_pass hl hn]
          exact .cons (hcont.names ▸ hk) (ih hu (by rwa [Control.setReg_size]) hrec hbegun hrest)

end

theorem Yields.cons {s p : Selection} {t u : List InputEvent} {c d : Control} {v : Value} {rows}
    (h : s.stepOn t c = ⟨.row, (p, u), d⟩) (hv : d.reg p.reg = v) (hy : p.Yields u d rows) :
    s.Yields t c (v :: rows) := hv ▸ .row h hy

/-- Of an input that is sorted by the grouping fields comes one row for each group, as far as it is
within bounds, unless groups are split by the order. -/
theorem yields_onePerGroup {s : Selection} {fields : List (Nat × String)} {c : Control}
    {specs : List SortSpec} {t : List InputEvent} {b : Bounds} {result : List Value}
    (hf : s.Fresh) (hg : s.GroupsBy fields c.size) (hb : (s.evalBounds c).1 = .ok b)
    (hspecs : specs.map (·.field) = fields.map (·.2))
    (hrec : ∀ a ∈ InputEvent.rows t, ∃ r, a.row = .map r)
    (hsort : SortedRows specs ((InputEvent.rows t).map (·.row)))
    (hu : Unsplit ((InputEvent.rows t).map (·.row)) (fields.map (·.2))) (hy : s.Yields t c result) :
    ∃ keys, OnePerGroup (fields.map (·.2)) ((InputEvent.rows t).map (·.row)) keys ∧
      List.Forall₂ (RowOfGroup s.names) (b.window keys) result := by
  have hd := s.evalBounds_alike c
  obtain ⟨d, he⟩ : ∃ d, s.evalBounds c = (.ok b, d) := ⟨_, Prod.ext hb rfl⟩
  rw [he] at hd
  have hsize : d.size = c.size := hd.registers.length
  rw [← hsize] at hg
  have hrun := yields_groups rfl hg hrec (by simp [hf.current]) ((yields_begin hf he).1 hy)
  rw [hf.current, Bounds.rest_zero] at hrun
  refine ⟨_, ?_, hrun⟩
  have hone := onePerGroup_groupKeys hspecs hsort hu
  rwa [List.map_map] at hone

/-- Counts the rows of each value of a field. -/
def countByField (f : String) : Selection :=
  { reg := 3, sourceReg := 0, columns := [fieldColumn 0 (1, f)], names := [f, "n"]
    aggregates := [.aggregate 2 none (.ofFunc .countStar)], grouping := some 1, star := false
    offset := none, limit := none }

/-- The row of a value with its number. -/
def countRow (f : String) (v : Value) (n : Int64) : Value := .map [(f, v), ("n", .long n)]

/-- An absent field and a null one, and a number in two types: four rows, but two groups. -/
theorem yields_onePerGroup_fourRows :
    let row (r : Record) : InputEvent := .row { row := .map r }
    let t := [row [], row [("k", .null)], .pause, row [("k", .integer 1)], row [("k", .long 1)]]
    let rows := (InputEvent.rows t).map (·.row)
    let result := [countRow "k" .null 2, countRow "k" (.integer 1) 2]
    let c := Control.ofConfig {} 4
    (countByField "k").Fresh ∧ (countByField "k").GroupsBy [(1, "k")] c.size ∧
      SortedRows [⟨"k", false, true⟩] rows ∧ Unsplit rows ["k"] ∧
      (countByField "k").Yields t c result ∧
      ∃ keys, OnePerGroup ["k"] rows keys ∧ List.Forall₂ (RowOfGroup ["k", "n"]) keys result := by
  intro row t rows result c
  have hf : (countByField "k").Fresh := ⟨rfl, rfl, rfl, rfl, rfl, rfl⟩
  have hg : (countByField "k").GroupsBy [(1, "k")] c.size := by
    refine ⟨rfl, rfl, by decide, by decide, by decide, ?_⟩
    exact List.forall_mem_singleton.2 (by decide)
  have hb : ((countByField "k").evalBounds c).1 = .ok ⟨0, none⟩ := rfl
  have hrec : ∀ a ∈ InputEvent.rows t, ∃ r, a.row = .map r := by
    simp [t, row, InputEvent.rows]
  have hsort : SortedRows [⟨"k", false, true⟩] rows := by
    unfold SortedRows
    decide
  have hu : Unsplit rows ["k"] := by
    refine ⟨.inr ⟨rfl, ?_⟩, trivial⟩
    simp [rows, t, row, InputEvent.rows, Value.field, Value.record?, Record.get?]
  have hy : (countByField "k").Yields t c result := by
    refine .more (by cbv) (.more (by cbv) (.pause (by cbv) rfl ?_))
    exact .cons (by cbv) rfl (.more (by cbv) (.cons (by cbv) rfl (.dry (by cbv) rfl)))
  exact ⟨hf, hg, hsort, hu, hy, yields_onePerGroup hf hg hb rfl hrec hsort hu hy⟩

/-- An absent field, a document null and a null: the first and the third row are one group, but the
second comes between them. -/
theorem yields_splitGroup :
    let row (r : Record) : InputEvent := .row { row := .map r }
    let t := [row [], row [("k", .jsonNull)], row [("k", .null)]]
    let rows := (InputEvent.rows t).map (·.row)
    let result := [countRow "k" .null 1, countRow "k" .jsonNull 1, countRow "k" .null 1]
    let c := Control.ofConfig {} 4
    SortedRows [⟨"k", false, false⟩] rows ∧ (countByField "k").Yields t c result ∧
      ¬∃ keys, OnePerGroup ["k"] rows keys ∧
        List.Forall₂ (RowOfGroup ["k", "n"]) keys result := by
  intro row t rows result c
  have hsort : SortedRows [⟨"k", false, false⟩] rows := by
    unfold SortedRows
    decide
  have hy : (countByField "k").Yields t c result := by
    refine .more (by cbv) (.cons (by cbv) rfl (.cons (by cbv) rfl ?_))
    exact .cons (by cbv) rfl (.dry (by cbv) rfl)
  refine ⟨hsort, hy, ?_⟩
  rintro ⟨keys, hone, hrows⟩
  have hkeys : ∀ k ∈ keys, k ∈ rows.map (groupTuple ["k"]) := by
    intro k hk
    obtain ⟨row, hrow, rfl⟩ := hone.occurs k hk
    exact List.mem_map_of_mem hrow
  -- There are just two groups, so that of three tuples two are of one group.
  have htwo : ∀ x ∈ rows.map (groupTuple ["k"]), ∀ y ∈ rows.map (groupTuple ["k"]),
      ∀ z ∈ rows.map (groupTuple ["k"]), sameGroup x y ∨ sameGroup x z ∨ sameGroup y z := by
    decide
  obtain ⟨x, y, z, rfl⟩ := List.length_eq_three.1 hrows.length_eq
  obtain ⟨hx, hyz⟩ := List.pairwise_cons.1 hone.apart
  rcases htwo x (hkeys x (by simp)) y (hkeys y (by simp)) z (hkeys z (by simp)) with h | h | h
  · exact hx y (by simp) h
  · exact hx z (by simp) h
  · exact (List.pairwise_cons.1 hyz).1 z (by simp) h

end Selection
end ShardQuery
