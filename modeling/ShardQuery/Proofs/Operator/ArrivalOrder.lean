import ShardQuery.Proofs.Operator.GroupBy

/-!
Grouping in any order of arrival. Counts, sums and extremes do not depend on the order in which
their parts are merged, as far as the order of values tells, and so the groups of the same rows are
the same ones, in another order and maybe shown by other values.
-/

namespace ShardQuery

/-! ## Functions in any order -/

namespace Accumulator

variable {f : AggregateFunc} {a b : Accumulator} {n : Int}

theorem foldlM_absorb_extreme {wanted : Ordering} (hw : a.func.wanted? = some wanted)
    (ps : List Value) :
    ps.foldlM absorb a = .ok (a.setResult (ps.foldl (Value.extreme wanted) a.value)) := by
  induction ps generalizing a with
  | nil => rfl
  | cons p ps ih =>
    rw [List.foldlM_cons, absorb_extreme hw]
    exact ih hw

theorem absorb_counting_of_not_isNumeric (hc : f.isCount = true) {v : Value}
    (hv : v.isNumeric = false) : (counting f n).absorb v = .ok (counting f n) := by
  unfold absorb merge
  cases f with
  | countStar | count | countNumbers =>
    simp only [counting, Placed.value_exact, hv, Bool.false_eq_true, ↓reduceIte]
    rfl
  | sum | min | max | collect | collectDistinct => cases hc

/-- Partial counts are added up. -/
theorem foldlM_absorb_counting (hc : f.isCount = true) (hn : fitsLong n = true) {ps : List Value}
    (hd : ∀ p ∈ ps, ∀ d, p ≠ .double d) (h : ps.foldlM absorb (counting f n) = .ok b) :
    b = counting f (n + (ps.filterMap Value.whole?).sum) := by
  induction ps generalizing n with
  | nil =>
    cases h
    rw [List.filterMap_nil, List.sum_nil, Int.add_zero]
  | cons p ps ih =>
    obtain ⟨hp, hrest⟩ := List.forall_mem_cons.1 hd
    rw [List.foldlM_cons] at h
    by_cases hnum : p.isNumeric = true
    · obtain ⟨m, hm⟩ := Value.whole?_of_isNumeric hnum hp
      rw [absorb_counting hc hnum, plus_counting hn hm] at h
      rw [List.filterMap_cons_some hm, List.sum_cons, ← Int.add_assoc]
      by_cases hfits : fitsLong (n + m) = true
      · rw [if_pos hfits] at h
        exact ih hfits hrest h
      · rw [if_neg hfits] at h
        cases h
    · have hnum : p.isNumeric = false := Bool.not_eq_true _ ▸ hnum
      rw [absorb_counting_of_not_isNumeric hc hnum] at h
      rw [List.filterMap_cons_none (Value.whole?_of_not_isNumeric hnum)]
      exact ih hn hrest h

end Accumulator

namespace AggregateFunc

variable {func : AggregateFunc} {ps qs : List Value} {v w : Value}

theorem ofPartials_extreme {wanted : Ordering} (hw : func.wanted? = some wanted)
    (ps : List Value) :
    func.ofPartials ps = .ok (ps.foldl (Value.extreme wanted) .empty).orNull := by
  have hempty : (Accumulator.ofFunc func).value = .empty := initial_of_wanted hw
  have hfold := Accumulator.foldlM_absorb_extreme (a := .ofFunc func) hw ps
  rw [hempty] at hfold
  rw [ofPartials, hfold]
  rfl

theorem ofPartials_count (hc : func.isCount = true) (hd : ∀ p ∈ ps, ∀ d, p ≠ .double d)
    (h : func.ofPartials ps = .ok v) :
    v = (Accumulator.counting func (ps.filterMap Value.whole?).sum).result := by
  rw [ofPartials, Accumulator.ofFunc_counting hc] at h
  cases hfold : ps.foldlM Accumulator.absorb (Accumulator.counting func 0) with
  | error e =>
    rw [hfold] at h
    cases h
  | ok b =>
    have hb := Accumulator.foldlM_absorb_counting hc rfl hd hfold
    rw [Int.zero_add] at hb
    rw [hfold, hb] at h
    exact (Except.ok.inj h).symm

/-- What counts, sums and extremes come to is the same to the order, in whatever order the parts are
merged. -/
theorem ofPartials_perm (hf : func.collects = false) (hp : ps.Perm qs)
    (hd : func.isCount = true ∨ func = .sum → ∀ p ∈ ps, ∀ d, p ≠ .double d)
    (hv : func.ofPartials ps = .ok v) (hw : func.ofPartials qs = .ok w) : v.equiv w = true := by
  have hsum : (ps.filterMap Value.whole?).sum = (qs.filterMap Value.whole?).sum :=
    (hp.filterMap _).sum_eq
  have hd' (h : func.isCount = true ∨ func = .sum) : ∀ q ∈ qs, ∀ d, q ≠ .double d :=
    fun q hq => hd h q (hp.mem_iff.2 hq)
  by_cases hc : func.isCount = true
  · rw [ofPartials_count hc (hd (.inl hc)) hv, ofPartials_count hc (hd' (.inl hc)) hw, hsum]
    exact Value.equiv_iff.2 rfl
  by_cases hs : func = .sum
  · subst hs
    rw [ofPartials_sum] at hv hw
    rcases ofValues_sum (hd (.inr rfl)) with ⟨t, he⟩ | ⟨x, hx, hxt⟩
    · cases hv.symm.trans he
    rcases ofValues_sum (hd' (.inr rfl)) with ⟨t, he⟩ | ⟨y, hy, hyt⟩
    · cases hw.symm.trans he
    obtain rfl := Except.ok.inj (hv.symm.trans hx)
    obtain rfl := Except.ok.inj (hw.symm.trans hy)
    refine hxt.equiv hyt hsum ⟨fun h => ?_, fun h => ?_⟩
    · exact List.perm_nil.1 (h ▸ (hp.filterMap Value.whole?).symm)
    · exact List.perm_nil.1 (h ▸ hp.filterMap Value.whole?)
  rcases func.collects_or_wanted (Bool.not_eq_true _ ▸ hc) hs with hcollects | ⟨wanted, hw', hne⟩
  · rw [hf] at hcollects
    cases hcollects
  rw [ofPartials_extreme hw'] at hv hw
  obtain rfl := Except.ok.inj hv
  obtain rfl := Except.ok.inj hw
  exact (Value.isExtreme_foldl hne ps).equiv hne (Value.isExtreme_foldl hne qs) hp

end AggregateFunc

/-! ## Groups in any order -/

/-- Tuples of groups of their own that are matched by such tuples can be matched one by one. -/
theorem exists_matched {ks ls : List (List Value)}
    (hks : ks.Pairwise fun a b => sameGroup a b = false)
    (hls : ls.Pairwise fun a b => sameGroup a b = false)
    (hkl : ∀ k ∈ ks, ∃ l ∈ ls, sameGroup k l = true)
    (hlk : ∀ l ∈ ls, ∃ k ∈ ks, sameGroup l k = true) :
    ∃ ms, ms.Perm ls ∧ List.Forall₂ (fun k m => sameGroup k m = true) ks ms := by
  have hnodup {ks : List (List Value)} (h : ks.Pairwise fun a b => sameGroup a b = false) :
      (ks.map (·.map Value.key)).Nodup := by
    refine List.pairwise_map.2 (h.imp fun hab he => ?_)
    rw [sameGroup_iff.2 he] at hab
    cases hab
  have hmem {ks ls : List (List Value)} (h : ∀ k ∈ ks, ∃ l ∈ ls, sameGroup k l = true)
      {x : List Key} (hx : x ∈ ks.map (·.map Value.key)) : x ∈ ls.map (·.map Value.key) := by
    obtain ⟨k, hk, rfl⟩ := List.mem_map.1 hx
    obtain ⟨l, hl, hs⟩ := h k hk
    exact List.mem_map.2 ⟨l, hl, (sameGroup_iff.1 hs).symm⟩
  have hperm : (ks.map (·.map Value.key)).Perm (ls.map (·.map Value.key)) :=
    (List.perm_ext_iff_of_nodup (hnodup hks) (hnodup hls)).2 fun x => ⟨hmem hkl, hmem hlk⟩
  have hself : List.Forall₂ (fun x l => x = l.map Value.key) (ls.map (·.map Value.key)) ls :=
    List.forall₂_map_left_iff.2 (List.forall₂_same.2 fun _ _ => rfl)
  obtain ⟨ms, hall, hms⟩ := List.perm_comp_forall₂ hperm hself
  refine ⟨ms, hms, ?_⟩
  rw [List.forall₂_map_left_iff] at hall
  exact hall.imp fun _ _ => sameGroup_iff.2

theorem sameGroup_values {vs ws : List Value} (h : sameGroup vs ws = true) :
    List.Forall₂ (fun v w => v.equiv w = true) vs ws := by
  have hall := List.forall₂_eq_eq_eq ▸ sameGroup_iff.1 h
  rw [List.forall₂_map_left_iff, List.forall₂_map_right_iff] at hall
  exact hall.imp fun _ _ => Value.equiv_iff.2

namespace GroupInfo

/-- Rows with a value for each column, of which the order tells none from that of the other row. -/
def SameRow (info : GroupInfo) (v w : Value) : Prop :=
  ∃ vs ws, v = .map (Record.ofFields (info.names.zip vs)) ∧
    w = .map (Record.ofFields (info.names.zip ws)) ∧ vs.length = info.names.length ∧
    List.Forall₂ (fun a b => a.equiv b = true) vs ws

/-- The tuples of the rows that come out. -/
def shown (info : GroupInfo) (rows : List Value) : List (List Value) :=
  if info.funcs.isEmpty then firstSeen id (rows.filterMap info.tuple?) else info.keys rows

section
variable {info : GroupInfo} {rows rows' : List Value} {k l : List Value}

theorem shown_of_ne_nil (h : rows.filterMap info.tuple? ≠ []) :
    info.shown rows = firstSeen id (rows.filterMap info.tuple?) := by
  unfold shown
  split
  · rfl
  · exact keys_of_ne_nil fun hnil => h (firstSeen_eq_nil.1 hnil)

theorem shown_of_nil (h : rows.filterMap info.tuple? = []) :
    info.shown rows =
      if info.funcs.isEmpty then [] else if info.grouping = 0 then [[]] else [] := by
  unfold shown keys
  rw [h]
  split
  · rfl
  · simp only [firstSeen, List.isEmpty_nil, Bool.true_and, decide_eq_true_eq]

theorem shown_pairwise (info : GroupInfo) (rows : List Value) :
    (info.shown rows).Pairwise fun a b => sameGroup a b = false := by
  by_cases h : rows.filterMap info.tuple? = []
  · rw [shown_of_nil h]
    split
    · exact .nil
    · split
      · exact List.pairwise_singleton ..
      · exact .nil
  · rw [shown_of_ne_nil h]
    exact firstSeen_pairwise _

/-- The same rows in another order have the same groups. -/
theorem exists_shown (hp : rows.Perm rows') (hk : k ∈ info.shown rows) :
    ∃ l ∈ info.shown rows', sameGroup k l = true := by
  have htuples : (rows.filterMap info.tuple?).Perm (rows'.filterMap info.tuple?) :=
    hp.filterMap _
  by_cases h : rows.filterMap info.tuple? = []
  · have h' : rows'.filterMap info.tuple? = [] := List.perm_nil.1 (h ▸ htuples.symm)
    rw [shown_of_nil h, ← shown_of_nil h'] at hk
    exact ⟨k, hk, sameGroup_refl k⟩
  · have h' : rows'.filterMap info.tuple? ≠ [] := fun h' => h (List.perm_nil.1 (h' ▸ htuples))
    rw [shown_of_ne_nil h] at hk
    rw [shown_of_ne_nil h']
    have hmem : k ∈ rows'.filterMap info.tuple? := htuples.mem_iff.1 (mem_of_firstSeen hk)
    obtain ⟨l, hl, hs⟩ := exists_firstSeen id hmem
    exact ⟨l, hl, sameGroup_symm hs⟩

theorem length_of_tuple {row : Value} (hshape : info.grouping ≤ info.names.length)
    (h : info.tuple? row = some k) : k.length = info.grouping := by
  have hlength : ((info.names.take info.grouping).map row.field).length = info.grouping := by
    rw [List.length_map, List.length_take]
    omega
  unfold tuple? at h
  simp only at h
  split at h
  · obtain rfl := Option.some.inj h
    rw [List.length_map]
    exact hlength
  · split at h
    · cases h
    · obtain rfl := Option.some.inj h
      exact hlength

theorem length_of_shown (hshape : info.grouping ≤ info.names.length) (hk : k ∈ info.shown rows) :
    k.length = info.grouping := by
  by_cases h : rows.filterMap info.tuple? = []
  · rw [shown_of_nil h] at hk
    split at hk
    · cases hk
    · split at hk
      · rename_i hzero
        rw [List.mem_singleton.1 hk, hzero]
        rfl
      · cases hk
  · rw [shown_of_ne_nil h] at hk
    obtain ⟨row, -, hrow⟩ := List.mem_filterMap.1 (mem_of_firstSeen hk)
    exact length_of_tuple hshape hrow

theorem arrivals_fst (info : GroupInfo) (t : List InputEvent) :
    (info.arrivals t).map Prod.fst =
      ((InputEvent.rows t).map (·.row)).filterMap info.tuple? := by
  induction t with
  | nil => rfl
  | cons event t ih =>
    cases event with
    | more | pause => exact ih
    | row a =>
      rw [arrivals, List.map_append, ih, InputEvent.rows, List.map_cons]
      cases htuple : info.tuple? a.row with
      | none =>
        rw [List.filterMap_cons_none htuple]
        rfl
      | some key =>
        rw [List.filterMap_cons_some htuple]
        rfl

/-- What comes out is a row for each tuple that is shown. -/
theorem rows_of_drained {t : List InputEvent} {out : List (Value × List InputEvent)}
    (h : info.drained t = .ok out) :
    List.Forall₂ (fun k v => (info.results k ((InputEvent.rows t).map (·.row))).map (info.row k) =
      .ok v) (info.shown ((InputEvent.rows t).map (·.row))) (out.map (·.1)) := by
  unfold drained at h
  unfold shown
  split at h
  · rename_i hfuncs
    have hnone (k rows : List Value) : info.results k rows = .ok [] := by
      rw [results, columns, List.isEmpty_iff.1 hfuncs]
      rfl
    obtain rfl := Except.ok.inj h
    rw [if_pos hfuncs, ← arrivals_fst, firstSeen_map, List.map_map, List.forall₂_map_left_iff,
      List.forall₂_map_right_iff]
    refine List.forall₂_same.2 fun p _ => ?_
    rw [hnone]
    rfl
  · rename_i hfuncs
    rw [if_neg hfuncs]
    cases hgroups : info.groups ((InputEvent.rows t).map (·.row)) with
    | error e =>
      rw [hgroups] at h
      cases h
    | ok vs =>
      rw [hgroups] at h
      obtain rfl := Except.ok.inj h
      have hfst : (vs.map fun v => (v, ([] : List InputEvent))).map (·.1) = vs := by
        rw [List.map_map]
        exact List.map_id vs
      rw [hfst]
      exact mapM_eq_ok_iff.1 hgroups

/-- Columns in which counts and sums see no doubles. -/
def Whole (info : GroupInfo) (rows : List Value) : Prop :=
  ∀ col ∈ info.columns, col.1.isCount = true ∨ col.1 = .sum →
    ∀ row ∈ rows, ∀ d, row.field col.2 ≠ .double d

theorem members_perm (hp : rows.Perm rows') (hs : sameGroup k l = true) :
    (info.members k rows).Perm (info.members l rows') := by
  have hsame : info.members l rows' = info.members k rows' := by
    refine List.filter_congr fun row _ => ?_
    cases info.tuple? row with
    | none => rfl
    | some m =>
      rw [Option.any_some, Option.any_some, Bool.eq_iff_iff]
      exact ⟨sameGroup_trans hs, sameGroup_trans (sameGroup_symm hs)⟩
  rw [hsame]
  exact hp.filter _

/-- The functions come to the same for a group, to the order. -/
theorem results_same (hfuncs : ∀ func ∈ info.funcs, func.collects = false)
    (hwhole : info.Whole rows) (hp : rows.Perm rows') (hs : sameGroup k l = true)
    {vs ws : List Value} (hv : info.results k rows = .ok vs) (hw : info.results l rows' = .ok ws) :
    List.Forall₂ (fun v w => v.equiv w = true) vs ws := by
  refine forall₂_of_mapM hv hw fun col hcol v w hcv hcw => ?_
  have hmembers : ((info.members k rows).map (·.field col.2)).Perm
      ((info.members l rows').map (·.field col.2)) := (members_perm hp hs).map _
  refine AggregateFunc.ofPartials_perm (hfuncs _ (List.of_mem_zip hcol).1) hmembers ?_ hcv hcw
  intro hnum p hp
  obtain ⟨row, hrow, rfl⟩ := List.mem_map.1 hp
  exact hwhole col hcol hnum row (List.mem_of_mem_filter hrow)

theorem sameRow_of_sameGroup (hshape : info.grouping + info.funcs.length = info.names.length)
    (hfuncs : ∀ func ∈ info.funcs, func.collects = false) (hwhole : info.Whole rows)
    (hp : rows.Perm rows') (hk : k.length = info.grouping) (hs : sameGroup k l = true) {v w : Value}
    (hv : (info.results k rows).map (info.row k) = .ok v)
    (hw : (info.results l rows').map (info.row l) = .ok w) : info.SameRow v w := by
  cases hvs : info.results k rows with
  | error e =>
    rw [hvs] at hv
    cases hv
  | ok vs =>
    cases hws : info.results l rows' with
    | error e =>
      rw [hws] at hw
      cases hw
    | ok ws =>
      rw [hvs] at hv
      rw [hws] at hw
      cases hv
      cases hw
      have hlength : vs.length = info.funcs.length := by
        have hcols : info.columns.length = info.funcs.length := by
          rw [columns, List.length_zip, List.length_drop]
          omega
        rw [← (mapM_eq_ok_iff.1 hvs).length_eq, hcols]
      refine ⟨k ++ vs, l ++ ws, rfl, rfl, ?_, ?_⟩
      · rw [List.length_append, hk, hlength, hshape]
      · exact List.rel_append (sameGroup_values hs) (results_same hfuncs hwhole hp hs hvs hws)

/-- Two drains of the same rows come to the same rows, in another order. -/
theorem exists_sameRows (hshape : info.grouping + info.funcs.length = info.names.length)
    (hfuncs : ∀ func ∈ info.funcs, func.collects = false) {t u : List InputEvent}
    (hwhole : info.Whole ((InputEvent.rows t).map (·.row)))
    (hp : ((InputEvent.rows t).map (·.row)).Perm ((InputEvent.rows u).map (·.row)))
    {out out' : List (Value × List InputEvent)} (hout : info.drained t = .ok out)
    (hout' : info.drained u = .ok out') :
    ∃ matched, matched.Perm (out'.map (·.1)) ∧
      List.Forall₂ info.SameRow (out.map (·.1)) matched := by
  have hrows := rows_of_drained hout
  have hrows' := rows_of_drained hout'
  obtain ⟨ms, hms, hsame⟩ := exists_matched (info.shown_pairwise _) (info.shown_pairwise _)
    (fun k hk => exists_shown hp hk) (fun l hl => exists_shown hp.symm hl)
  obtain ⟨matched, hmatched, hperm⟩ := List.perm_comp_forall₂ hms hrows'
  refine ⟨matched, hperm, ?_⟩
  have hlength : ∀ k ∈ info.shown ((InputEvent.rows t).map (·.row)), k.length = info.grouping :=
    fun k hk => length_of_shown (by omega) hk
  generalize info.shown ((InputEvent.rows t).map (·.row)) = ks at hrows hsame hlength
  clear hms hperm hrows'
  generalize out.map (·.1) = vs at hrows
  induction hsame generalizing vs matched with
  | nil =>
    cases hrows
    cases hmatched
    exact .nil
  | cons hs _ ih =>
    obtain ⟨hk, hrest⟩ := List.forall_mem_cons.1 hlength
    cases hrows with
    | cons hv hvs =>
      cases hmatched with
      | cons hw hws =>
        exact .cons (sameRow_of_sameGroup hshape hfuncs hwhole hp hk hs hv hw)
          (ih _ hws hrest _ hvs)

end

end GroupInfo

namespace Grouping

/-- Grouping does not depend on the order of arrival. Two drains of a step over the same rows, in
any two orders and over any calls, that both succeed come to the same rows one by one: the order
tells neither their grouping values nor their counts, sums and extremes apart. -/
theorem drains_any_order {g : Grouping} (hf : g.Fresh)
    (hfuncs : ∀ func ∈ g.info.funcs, func.collects = false) {t u : List InputEvent}
    {c d : Control} (hc : g.reg < c.size ∧ g.inputReg < c.size)
    (hd : g.reg < d.size ∧ g.inputReg < d.size)
    (hrecords : ∀ a ∈ InputEvent.rows t, ∃ fields, a.row = .map fields)
    (hp : ((InputEvent.rows t).map (·.row)).Perm ((InputEvent.rows u).map (·.row)))
    (hwhole : ∀ col ∈ g.info.columns, col.1.isCount = true ∨ col.1 = .sum →
      ∀ a ∈ InputEvent.rows t, ∀ x, a.row.field col.2 ≠ .double x)
    {out out' : List (Value × List InputEvent)} (hout : g.Drains t c (.ok out))
    (hout' : g.Drains u d (.ok out')) :
    ∃ matched, matched.Perm (out'.map (·.1)) ∧
      List.Forall₂ g.info.SameRow (out.map (·.1)) matched := by
  have hrecords' : ∀ a ∈ InputEvent.rows u, ∃ fields, a.row = .map fields := by
    intro a ha
    obtain ⟨b, hb, he⟩ := List.mem_map.1 (hp.mem_iff.2 (List.mem_map_of_mem ha))
    obtain ⟨fields, hfields⟩ := hrecords b hb
    exact ⟨fields, he ▸ hfields⟩
  have hwhole' : g.info.Whole ((InputEvent.rows t).map (·.row)) := by
    intro col hcol hnum row hrow x
    obtain ⟨a, ha, rfl⟩ := List.mem_map.1 hrow
    exact hwhole col hcol hnum a ha x
  have hfirst : g.info.drained t = .ok out :=
    (ends_drained hf hc.1 hc.2 hrecords).2 (.ok out) hout
  have hsecond : g.info.drained u = .ok out' :=
    (ends_drained hf hd.1 hd.2 hrecords').2 (.ok out') hout'
  exact GroupInfo.exists_sameRows hf.shape hfuncs hwhole' hp hfirst hsecond

/-- Three rows of two groups, over two calls or backwards over one: the group that comes first in
one order is the second in the other, and is shown by the number 1 in another width. -/
theorem drains_any_order_backwards :
    let row (a n m : Value) : InputEvent := .row ⟨.map [("a", a), ("n", n), ("m", m)], [], id⟩
    let g : Grouping :=
      { reg := 1, inputReg := 0, info := ⟨1, ["a", "n", "m"], [.sum, .min], false, true, false⟩ }
    let t := [row (.integer 1) (.integer 2147483647) (.integer 3), .pause,
      row (.long 1) (.integer 1) (.long 3), row (.long 2) (.integer 5) .null]
    let u := [row (.long 2) (.integer 5) .null, row (.long 1) (.integer 1) (.long 3),
      row (.integer 1) (.integer 2147483647) (.integer 3)]
    let shown (a n m : Value) : Value := .map [("a", a), ("n", n), ("m", m)]
    let out := [shown (.integer 1) (.long 2147483648) (.integer 3),
      shown (.long 2) (.integer 5) .null]
    let out' := [shown (.long 2) (.integer 5) .null,
      shown (.long 1) (.long 2147483648) (.long 3)]
    g.Drains t (.ofConfig {} 2) (.ok (out.map (·, []))) ∧
      g.Drains u (.ofConfig {} 3) (.ok (out'.map (·, []))) ∧
      ∃ matched, matched.Perm out' ∧ List.Forall₂ g.info.SameRow out matched := by
  intro row g t u shown out out'
  have hf : g.Fresh := ⟨rfl, rfl, rfl, rfl⟩
  have hrecords : ∀ a ∈ InputEvent.rows t, ∃ fields, a.row = .map fields := by
    simp [t, row, InputEvent.rows]
  have hrecords' : ∀ a ∈ InputEvent.rows u, ∃ fields, a.row = .map fields := by
    simp [u, row, InputEvent.rows]
  have hout : g.Drains t (.ofConfig {} 2) (.ok (out.map (·, []))) :=
    drains_of_drained hf (by decide) (by decide) hrecords rfl rfl
  have hout' : g.Drains u (.ofConfig {} 3) (.ok (out'.map (·, []))) :=
    drains_of_drained hf (by decide) (by decide) hrecords' rfl rfl
  have hp : ((InputEvent.rows t).map (·.row)).Perm ((InputEvent.rows u).map (·.row)) :=
    (List.reverse_perm ((InputEvent.rows t).map (·.row))).symm
  have hfuncs : ∀ func ∈ g.info.funcs, func.collects = false := by decide
  have hwhole : ∀ col ∈ g.info.columns, col.1.isCount = true ∨ col.1 = .sum →
      ∀ a ∈ InputEvent.rows t, ∀ x, a.row.field col.2 ≠ .double x := by
    intro col hcol hnum a ha x
    have hcols : col = (.sum, "n") ∨ col = (.min, "m") := by
      simpa [g, GroupInfo.columns] using hcol
    rcases hcols with rfl | rfl
    · simp only [t, row, InputEvent.rows, List.mem_cons, List.not_mem_nil, or_false] at ha
      intro he
      rcases ha with rfl | rfl | rfl <;> cases he
    · rcases hnum with hnum | hnum <;> cases hnum
  exact ⟨hout, hout', drains_any_order hf hfuncs ⟨by decide, by decide⟩
    ⟨by decide, by decide⟩ hrecords hp hwhole hout hout'⟩

end Grouping
end ShardQuery
