import ShardQuery.Proofs.Operator.Reference

/-!
Rows whose groups are runs. Taken run by run, with accumulators that are fed the values of the rows,
they make what the reference makes of them.
-/

namespace ShardQuery

/-! ## Runs -/

section
variable {α : Type}

/-- The runs of rows with one tuple, after a run that has begun. -/
def runsFrom (tuple : α → List Value) (k : List Value) (members : List α) :
    List α → List (List Value × List α)
  | [] => [(k, members)]
  | a :: rest =>
    if sameGroup k (tuple a) then runsFrom tuple k (members ++ [a]) rest
    else (k, members) :: runsFrom tuple (tuple a) [a] rest

/-- The runs of rows, each with the tuple of its first row. -/
def runs (tuple : α → List Value) : List α → List (List Value × List α)
  | [] => []
  | a :: rest => runsFrom tuple (tuple a) [a] rest

/-- All rows of each group, in the order in which the groups were first seen. -/
def byGroup (tuple : α → List Value) (as : List α) : List (List Value × List α) :=
  (firstSeen id (as.map tuple)).map fun k => (k, as.filter (sameGroup k <| tuple ·))

/-- What comes before a row of a group is of that group. -/
def Leads (tuple : α → List Value) (k : List Value) (as : List α) : Prop :=
  ∀ before b after, as = before ++ b :: after → sameGroup k (tuple b) = true →
    ∀ x ∈ before, sameGroup k (tuple x) = true

/-- What is between two rows of one group is of that group. -/
def Contiguous (tuple : α → List Value) (as : List α) : Prop :=
  ∀ before a between b after, as = before ++ a :: (between ++ b :: after) →
    sameGroup (tuple a) (tuple b) = true → ∀ x ∈ between, sameGroup (tuple a) (tuple x) = true

variable {tuple : α → List Value} {a b : α} {as : List α} {k l : List Value} {members : List α}

theorem Leads.tail (h : Leads tuple k (a :: as)) : Leads tuple k as :=
  fun before b after has hb x hx =>
    h (a :: before) b after (by rw [has, List.cons_append]) hb x (List.mem_cons_of_mem _ hx)

theorem Contiguous.tail (h : Contiguous tuple (a :: as)) : Contiguous tuple as :=
  fun before b between c after has =>
    h (a :: before) b between c after (by rw [has, List.cons_append])

theorem Contiguous.leads (h : Contiguous tuple (a :: as)) : Leads tuple (tuple a) as :=
  fun before b after has => h [] a before b after (by rw [has, List.nil_append])

/-- A group that does not come first does not come at all. -/
theorem Leads.absent (h : Leads tuple k (a :: as)) (ha : sameGroup k (tuple a) = false) :
    ∀ x ∈ a :: as, sameGroup k (tuple x) = false := by
  intro x hx
  rcases List.mem_cons.1 hx with rfl | hx
  · exact ha
  · obtain ⟨before, after, rfl⟩ := List.append_of_mem hx
    refine Bool.eq_false_iff.2 fun hs => ?_
    cases ha.symm.trans (h (a :: before) x after rfl hs a (List.mem_cons_self ..))

theorem leads_nil : Leads tuple k [] := fun before b after has => by simp at has

theorem leads_cons : Leads tuple k (a :: as) ↔
    (∀ x ∈ a :: as, sameGroup k (tuple x) = false) ∨
      sameGroup k (tuple a) = true ∧ Leads tuple k as := by
  constructor
  · intro h
    cases ha : sameGroup k (tuple a) with
    | false => exact .inl (h.absent ha)
    | true => exact .inr ⟨rfl, h.tail⟩
  · rintro (habsent | ⟨ha, h⟩) before b after has hb x hx
    · rw [habsent b (has ▸ List.mem_append_right _ (List.mem_cons_self ..))] at hb
      cases hb
    · cases before with
      | nil => cases hx
      | cons y before =>
        obtain ⟨rfl, hrest⟩ := List.cons_eq_cons.1 has
        rcases List.mem_cons.1 hx with rfl | hx
        · exact ha
        · exact h before b after hrest hb x hx

theorem contiguous_nil : Contiguous tuple [] := fun before a between b after has => by simp at has

theorem contiguous_cons :
    Contiguous tuple (a :: as) ↔ Leads tuple (tuple a) as ∧ Contiguous tuple as := by
  refine ⟨fun h => ⟨h.leads, h.tail⟩, ?_⟩
  rintro ⟨hlead, h⟩ before x between b after has hb
  cases before with
  | nil =>
    obtain ⟨rfl, hrest⟩ := List.cons_eq_cons.1 has
    exact hlead between b after hrest hb
  | cons y before => exact h before x between b after (List.cons_eq_cons.1 has).2 hb

instance decidableLeads (tuple : α → List Value) (k : List Value) :
    (as : List α) → Decidable (Leads tuple k as)
  | [] => isTrue leads_nil
  | _ :: as =>
    have := decidableLeads tuple k as
    decidable_of_iff _ leads_cons.symm

instance decidableContiguous (tuple : α → List Value) :
    (as : List α) → Decidable (Contiguous tuple as)
  | [] => isTrue contiguous_nil
  | _ :: as =>
    have := decidableContiguous tuple as
    decidable_of_iff _ contiguous_cons.symm

/-- More rows may come to the run that has begun, but it comes first in any case. -/
theorem exists_runsFrom (tuple : α → List Value) (k : List Value) (members as : List α) :
    ∃ more rest, runsFrom tuple k members as = (k, members ++ more) :: rest := by
  induction as generalizing members with
  | nil => exact ⟨[], [], by rw [runsFrom, List.append_nil]⟩
  | cons a as ih =>
    rw [runsFrom]
    split
    · obtain ⟨more, rest, h⟩ := ih (members ++ [a])
      exact ⟨a :: more, rest, by rw [h, List.append_assoc, List.singleton_append]⟩
    · exact ⟨[], _, by rw [List.append_nil]⟩

/-- A row of a group makes no difference to the others. -/
theorem map_others (ha : sameGroup k (tuple a) = true) (ls : List (List Value)) :
    ((ls.filter (!sameGroup k ·)).map fun l => (l, (a :: as).filter (sameGroup l <| tuple ·))) =
      (ls.filter (!sameGroup k ·)).map fun l => (l, as.filter (sameGroup l <| tuple ·)) := by
  refine List.map_congr_left fun l hl => congrArg (l, ·) (List.filter_cons_of_neg fun hla => ?_)
  have hl := (List.mem_filter.1 hl).2
  rw [sameGroup_trans ha (sameGroup_symm hla)] at hl
  cases hl

theorem byGroup_cons (tuple : α → List Value) (a : α) (as : List α) :
    byGroup tuple (a :: as) =
      (tuple a, [a] ++ as.filter (sameGroup (tuple a) <| tuple ·)) ::
        ((firstSeen id (as.map tuple)).filter (!sameGroup (tuple a) ·)).map fun l =>
          (l, as.filter (sameGroup l <| tuple ·)) := by
  have ha := sameGroup_refl (tuple a)
  have hfirst : (a :: as).filter (sameGroup (tuple a) <| tuple ·) =
      [a] ++ as.filter (sameGroup (tuple a) <| tuple ·) := List.filter_cons_of_pos ha
  rw [byGroup, List.map_cons, firstSeen, List.map_cons]
  simp only [id]
  rw [hfirst, map_others ha]

/-- Where no group comes back, the run that has begun takes all rows of its group, and each other
group is one run. -/
theorem runsFrom_eq (hk : Leads tuple k as) (hc : Contiguous tuple as) :
    runsFrom tuple k members as =
      (k, members ++ as.filter (sameGroup k <| tuple ·)) ::
        ((firstSeen id (as.map tuple)).filter (!sameGroup k ·)).map fun l =>
          (l, as.filter (sameGroup l <| tuple ·)) := by
  induction as generalizing k members with
  | nil => simp [runsFrom, firstSeen]
  | cons a rest ih =>
    rw [runsFrom]
    cases hs : sameGroup k (tuple a) with
    | true =>
      have hfirst : (a :: rest).filter (sameGroup k <| tuple ·) =
          a :: rest.filter (sameGroup k <| tuple ·) := List.filter_cons_of_pos hs
      have hothers : (firstSeen id ((a :: rest).map tuple)).filter (!sameGroup k ·) =
          (firstSeen id (rest.map tuple)).filter (!sameGroup k ·) := by
        rw [List.map_cons, firstSeen, List.filter_cons_of_neg (by simp [hs]), List.filter_filter]
        refine List.filter_congr fun l _ => ?_
        have hl : sameGroup (tuple a) l = sameGroup k l := by
          rw [Bool.eq_iff_iff]
          exact ⟨sameGroup_trans hs, sameGroup_trans (sameGroup_symm hs)⟩
        simp only [id, hl, Bool.and_self]
      rw [if_pos rfl, ih hk.tail hc.tail, List.append_assoc, List.singleton_append, hfirst,
        hothers, map_others hs]
    | false =>
      have habsent := hk.absent hs
      have hempty : (a :: rest).filter (sameGroup k <| tuple ·) = [] :=
        List.filter_eq_nil_iff.2 fun x hx => by simp [habsent x hx]
      have hall : (firstSeen id ((a :: rest).map tuple)).filter (!sameGroup k ·) =
          firstSeen id ((a :: rest).map tuple) := by
        refine List.filter_eq_self.2 fun l hl => ?_
        obtain ⟨x, hx, rfl⟩ := List.mem_map.1 (mem_of_firstSeen hl)
        rw [habsent x hx]
        rfl
      rw [if_neg Bool.false_ne_true, ih hc.leads hc.tail, ← byGroup_cons, hempty, hall,
        List.append_nil]
      rfl

/-- Where no group comes back, each group is one run, in the order in which they were first
seen. -/
theorem runs_eq (hc : Contiguous tuple as) : runs tuple as = byGroup tuple as := by
  cases as with
  | nil => rfl
  | cons a rest => rw [runs, runsFrom_eq hc.leads hc.tail, byGroup_cons]

end

/-! ## Accumulators that are fed rows -/

namespace Accumulator
variable {a b : Accumulator} {v : Value}

/-- Only counts and collected arrays tell the result of a part from the value of a row. -/
theorem absorb_eq_feed (hc : a.func.isCount = false)
    (hv : a.func.collects = true → ∀ items, v ≠ .array items) : a.absorb v = a.feed v := by
  cases a with | mk func value seen memory =>
  cases func with
  | countStar | count | countNumbers => cases hc
  | sum | min | max => rfl
  | collect | collectDistinct =>
    cases v with
    | array items => exact (hv rfl items rfl).elim
    | _ => rfl

theorem foldlM_absorb_eq_feed (hc : a.func.isCount = false) {vs : List Value}
    (hvs : a.func.collects = true → ∀ v ∈ vs, ∀ items, v ≠ .array items) :
    vs.foldlM absorb a = vs.foldlM feed a := by
  induction vs generalizing a with
  | nil => rfl
  | cons v vs ih =>
    rw [List.foldlM_cons, List.foldlM_cons,
      absorb_eq_feed hc fun hf => hvs hf v (List.mem_cons_self ..)]
    cases hb : a.feed v with
    | error e => rfl
    | ok b =>
      have hf := feed_func hb
      exact ih (hf ▸ hc) fun h u hu => hvs (hf ▸ h) u (List.mem_cons_of_mem _ hu)

end Accumulator

/-! ## The rows of runs -/

theorem mapM_congr {α β : Type} {f g : α → Except QueryError β} {as : List α}
    (h : ∀ a ∈ as, f a = g a) : as.mapM f = as.mapM g := by
  induction as with
  | nil => rfl
  | cons a as ih =>
    obtain ⟨ha, hrest⟩ := List.forall_mem_cons.1 h
    rw [List.mapM_cons, List.mapM_cons, ha, ih hrest]

/-- Where all of one list succeed, what is then done with each is done with the results. -/
theorem mapM_bind_eq {α β γ : Type} {f : α → Except QueryError β} {g : α → β → Except QueryError γ}
    {as : List α} {bs : List β} (h : as.mapM f = .ok bs) :
    (as.mapM fun a => f a >>= g a) = (as.zip bs).mapM fun p => g p.1 p.2 := by
  rw [mapM_eq_ok_iff] at h
  induction h with
  | nil => rfl
  | cons hb _ ih =>
    rw [List.mapM_cons, List.zip_cons_cons, List.mapM_cons, ih, hb]
    rfl

namespace GroupInfo

/-- The values of the grouping columns. -/
def tuple (info : GroupInfo) (row : Value) : List Value :=
  (info.names.take info.grouping).map row.field

/-- The accumulators of a run, each fed the values of its column. -/
def fed (info : GroupInfo) (members : List Value) : Except QueryError (List Accumulator) :=
  info.columns.mapM fun col =>
    (members.map (·.field col.2)).foldlM Accumulator.feed (.ofFunc col.1)

/-- The row of a run. -/
def runRow (info : GroupInfo) (run : List Value × List Value) : Except QueryError Value :=
  (info.fed run.2).map fun as => info.row run.1 (as.map Accumulator.result)

/-- The rows of all runs. With no grouping columns there is a run even of no rows. -/
def byRuns (info : GroupInfo) (rows : List Value) : Except QueryError (List Value) :=
  (if rows.isEmpty && info.grouping = 0 then [([], [])] else runs info.tuple rows).mapM info.runRow

/-- Rows that can be grouped run by run: they have their grouping values, and arrays are not
collected. -/
structure Plain (info : GroupInfo) (rows : List Value) : Prop where
  present : ∀ row ∈ rows, ∀ name ∈ info.names.take info.grouping, row.field name ≠ .empty
  collected : ∀ col ∈ info.columns, col.1.collects = true →
    ∀ row ∈ rows, ∀ items, row.field col.2 ≠ .array items

variable {info : GroupInfo} {key : List Value} {rows members more : List Value}
  {accs : List Accumulator}

theorem fed_append {as : List Accumulator} (h : info.fed (members ++ more) = .ok as) :
    ∃ as, info.fed members = .ok as := by
  refine exists_mapM fun col hcol => ?_
  obtain ⟨a, ha⟩ := exists_of_mapM h hcol
  rw [List.map_append, List.foldlM_append] at ha
  cases hfirst : (members.map (·.field col.2)).foldlM Accumulator.feed (.ofFunc col.1) with
  | ok b => exact ⟨b, rfl⟩
  | error e =>
    rw [hfirst] at ha
    cases ha

/-- One more row is fed to the accumulators of the rows before it. -/
theorem fed_concat (h : info.fed members = .ok accs) (row : Value) :
    info.fed (members ++ [row]) =
      (info.columns.zip accs).mapM fun p => p.2.feed (row.field p.1.2) := by
  refine Eq.trans (mapM_congr fun col _ => ?_)
    (mapM_bind_eq (g := fun col a => a.feed (row.field col.2)) h)
  rw [List.map_append, List.foldlM_append]
  refine congrArg _ (funext fun a => ?_)
  change (a.feed (row.field col.2) >>= pure) = a.feed (row.field col.2)
  cases a.feed (row.field col.2) <;> rfl

/-- The accumulators of a run, armed again, are those of no rows. -/
theorem fed_rearm (h : info.fed members = .ok accs) :
    info.fed [] = .ok (accs.map Accumulator.rearm) := by
  have hinit : info.fed [] = .ok (info.columns.map fun col => Accumulator.ofFunc col.1) :=
    mapM_of_forall fun _ _ => rfl
  rw [hinit]
  refine congrArg Except.ok (List.forall₂_eq_eq_eq ▸ ?_)
  refine List.forall₂_map_right_iff.2 (forall₂_of_mapM hinit h ?_)
  intro col hcol b a hb ha
  obtain rfl := Except.ok.inj hb
  have hfunc := Accumulator.foldlM_feed_func ha
  rw [Accumulator.rearm, hfunc]
  rfl

/-- If a run cannot be had, nor can the rows of all runs. -/
theorem exists_runsFrom_error (h : ∀ as, info.fed members ≠ .ok as) (k rows : List Value) :
    ∃ e, (runsFrom info.tuple k members rows).mapM info.runRow = .error e := by
  obtain ⟨more, rest, hruns⟩ := exists_runsFrom info.tuple k members rows
  cases hall : (runsFrom info.tuple k members rows).mapM info.runRow with
  | error e => exact ⟨e, rfl⟩
  | ok out =>
    obtain ⟨row, hrow⟩ := exists_of_mapM hall (hruns ▸ List.mem_cons_self ..)
    cases hfed : info.fed (members ++ more) with
    | error e =>
      rw [runRow, hfed] at hrow
      cases hrow
    | ok as =>
      obtain ⟨as, has⟩ := fed_append hfed
      exact (h as has).elim

theorem Plain.tuple?_eq (h : info.Plain rows) (hfuncs : info.funcs ≠ []) :
    ∀ row ∈ rows, info.tuple? row = some (info.tuple row) := by
  intro row hrow
  have hsome : info.funcs.isEmpty = false := by simpa using hfuncs
  have hpresent : ((info.names.take info.grouping).map row.field).any Value.isEmpty = false := by
    refine List.any_eq_false.2 fun v hv => ?_
    obtain ⟨name, hname, rfl⟩ := List.mem_map.1 hv
    have hne := h.present row hrow name hname
    cases hval : row.field name <;> first | exact (hne hval).elim | exact nofun
  rw [GroupInfo.tuple?, hsome, Bool.and_false, if_neg Bool.false_ne_true, hpresent,
    if_neg Bool.false_ne_true]
  rfl

theorem Plain.members_eq (h : info.Plain rows) (hfuncs : info.funcs ≠ []) (key : List Value) :
    info.members key rows = rows.filter (sameGroup key <| info.tuple ·) :=
  List.filter_congr fun row hrow => by rw [h.tuple?_eq hfuncs row hrow, Option.any_some]

/-- What rows are merged to as results of parts of their group is what they are fed to. -/
theorem Plain.accumulators_eq (h : info.Plain rows) (hfuncs : info.funcs ≠ [])
    (hcounts : ∀ f ∈ info.funcs, f.isCount = false) (key : List Value) :
    info.accumulators key rows = info.fed (rows.filter (sameGroup key <| info.tuple ·)) := by
  rw [GroupInfo.accumulators, fed, h.members_eq hfuncs]
  refine mapM_congr fun col hcol => ?_
  refine Accumulator.foldlM_absorb_eq_feed (hcounts col.1 (List.of_mem_zip hcol).1) ?_
  intro hf v hv items
  obtain ⟨row, hrow, rfl⟩ := List.mem_map.1 hv
  exact h.collected col hcol hf row (List.mem_of_mem_filter hrow) items

/-- Where no group comes back, taking rows run by run makes the rows of the reference. -/
theorem groups_eq_byRuns (h : info.Plain rows) (hfuncs : info.funcs ≠ [])
    (hcounts : ∀ f ∈ info.funcs, f.isCount = false) (hc : Contiguous info.tuple rows) :
    info.groups rows = info.byRuns rows := by
  have htuples : rows.filterMap info.tuple? = rows.map info.tuple := by
    rw [← List.filterMap_eq_map]
    exact List.filterMap_congr (h.tuple?_eq hfuncs)
  have hrow (key : List Value) : (info.results key rows).map (info.row key) =
      info.runRow (key, rows.filter (sameGroup key <| info.tuple ·)) := by
    rw [results_eq, h.accumulators_eq hfuncs hcounts, runRow]
    cases info.fed (rows.filter (sameGroup key <| info.tuple ·)) <;> rfl
  have hgroups : info.groups rows = (info.keys rows).mapM fun key =>
      info.runRow (key, rows.filter (sameGroup key <| info.tuple ·)) := by
    simp only [groups, hrow]
  rw [hgroups, byRuns]
  have hempty : (firstSeen id (rows.map info.tuple)).isEmpty = rows.isEmpty := by
    rw [Bool.eq_iff_iff, List.isEmpty_iff, firstSeen_eq_nil, List.map_eq_nil_iff,
      List.isEmpty_iff]
  by_cases hnone : (rows.isEmpty && decide (info.grouping = 0)) = true
  · have hkeys : info.keys rows = [[]] := by
      rw [keys, htuples, hempty, if_pos hnone]
    rw [if_pos hnone, hkeys, List.isEmpty_iff.1 (Bool.and_eq_true_iff.1 hnone).1]
    rfl
  · have hkeys : info.keys rows = firstSeen id (rows.map info.tuple) := by
      rw [keys, htuples, hempty, if_neg hnone]
    rw [if_neg hnone, hkeys, runs_eq hc, byGroup, List.mapM_map]
    rfl

end GroupInfo
end ShardQuery
