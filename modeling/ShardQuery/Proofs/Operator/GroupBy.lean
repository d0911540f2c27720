import ShardQuery.Proofs.Operator.Books
import ShardQuery.Proofs.Operator.Draining
import ShardQuery.Proofs.Operator.Reference

/-!
A group step does what the reference says: over as many calls as the input takes, and with whatever
is charged or released on the way, the rows that come out are those of the reference.
-/

namespace ShardQuery
namespace Grouping

/-! ## Taking in a row -/

/-- A charge that the budget refuses. -/
def Refuses (g : Grouping) (e : QueryError) : Prop :=
  g.info.countMemory = true ∧ ∃ used limit, e = .memoryExceeded used limit

/-- A grouping that got on, over as many registers. -/
structure Continues (g : Grouping) (c : Control) (p : Grouping) (d : Control) : Prop where
  reg : p.reg = g.reg
  inputReg : p.inputReg = g.inputReg
  info : p.info = g.info
  phase : p.phase = g.phase
  size : d.size = c.size

/-- The groups when these rows have come in. None of their own rows has come out. -/
structure Holds (g : Grouping) (keys : List (List Value)) (rows : List Value) : Prop where
  order : g.order = keys
  keys : g.groups.map (·.key) = keys
  accumulators : ∀ e ∈ g.groups, g.info.accumulators e.key rows = .ok e.accumulators

/-- What became of a step that took in a row: it got on, and its groups are those of all rows so
far, or it failed because their accumulators cannot be had or the budget is spent. -/
def Takes (g : Grouping) (c : Control) (keys : List (List Value)) (rows : List Value) :
    Step Grouping → Prop
  | ⟨.more, p, d⟩ => g.Continues c p d ∧ p.Holds keys rows
  | ⟨.fail e, _, _⟩ => (∃ k ∈ keys, ∀ as, g.info.accumulators k rows ≠ .ok as) ∨ g.Refuses e
  | ⟨.row, _, _⟩ | ⟨.dry, _, _⟩ | ⟨.request _, _, _⟩ => False

section
variable {g : Grouping} {c d : Control} {e : GroupEntry} {keys : List (List Value)}
  {rows : List Value} {row : Value} {key : List Value}

theorem charge_refused {n : Nat} {failure : QueryError} (h : c.charge n = (some failure, d)) :
    ∃ used limit, failure = .memoryExceeded used limit := by
  unfold Control.charge Ledger.charge at h
  split at h
  · cases h
  · rename_i he
    split at he
    · cases he
    · cases he
      cases h
      exact ⟨_, _, rfl⟩

theorem chargeKey_refused {failure : QueryError} (h : g.chargeKey key c = (some failure, d)) :
    g.Refuses failure := by
  unfold chargeKey at h
  split at h
  · rename_i hm
    exact ⟨hm, charge_refused h⟩
  · cases h

theorem chargeKey_size (h : g.chargeKey key c = (none, d)) : d.size = c.size := by
  unfold chargeKey at h
  split at h
  · have hsize := c.charge_size (g.keyMemory key)
    rw [h] at hsize
    exact hsize
  · cases h
    rfl

theorem Holds.grow (h : g.Holds keys rows) (n charged : Nat) : Holds { g with
    groups := update key (fun e => { e with memory := e.memory + n }) g.groups
    charged } keys rows := by
  refine ⟨h.order, ?_, ?_⟩
  · rw [← h.keys]
    exact map_update fun _ => rfl
  · intro e he
    obtain ⟨e, hmem, rfl⟩ := List.mem_map.1 he
    have hacc := h.accumulators e hmem
    split
    · exact hacc
    · exact hacc

/-- A row of a group that is there makes a difference to its accumulators only. -/
theorem Holds.merge (h : g.Holds keys rows)
    (hd : keys.Pairwise fun a b => sameGroup a b = false)
    (hrow : g.info.tuple? row = some key) (hfind : g.find? key = some e) {as : List Accumulator}
    (has : g.info.accumulators e.key (rows ++ [row]) = .ok as) :
    Holds { g with groups := update key (fun e => { e with accumulators := as }) g.groups } keys
      (rows ++ [row]) := by
  rw [← h.keys] at hd
  refine ⟨h.order, ?_, ?_⟩
  · rw [← h.keys]
    exact map_update fun _ => rfl
  · intro x hx
    obtain ⟨x, hmem, rfl⟩ := List.mem_map.1 hx
    cases hs : sameGroup x.key key with
    | true =>
      obtain rfl : x = e := Option.some.inj ((find?_of_mem hd hmem hs).symm.trans hfind)
      simp only [↓reduceIte]
      exact has
    | false =>
      simp only [Bool.false_eq_true, ↓reduceIte]
      rw [GroupInfo.accumulators_concat_other fun k hk => by
        rw [← Option.some.inj (hrow.symm.trans hk)]
        exact hs]
      exact h.accumulators x hmem

theorem foldRow_takes (hshape : g.info.grouping + g.info.funcs.length = g.info.names.length)
    (h : g.Holds keys rows) (hd : keys.Pairwise fun a b => sameGroup a b = false)
    (hk : ∃ k ∈ keys, sameGroup k key = true) (hrow : g.info.tuple? row = some key) (c : Control) :
    g.Takes c keys (rows ++ [row]) (g.foldRow key (g.partialNames.map row.field) c) := by
  obtain ⟨e, he, hs⟩ : ∃ e ∈ g.groups, sameGroup e.key key = true := by
    obtain ⟨k, hk, hs⟩ := hk
    rw [← h.keys] at hk
    obtain ⟨e, he, rfl⟩ := List.mem_map.1 hk
    exact ⟨e, he, hs⟩
  have hfind : g.find? key = some e := find?_of_mem (h.keys ▸ hd) he hs
  have hcols : g.partialNames.map row.field = g.info.columns.map fun col => row.field col.2 := by
    have hnames : g.info.columns.map Prod.snd = g.partialNames := by
      apply List.map_snd_zip
      rw [List.length_drop]
      omega
    rw [← hnames, List.map_map]
    rfl
  have hmerge := mergeAll_eq (h.accumulators e he) row
  rw [← GroupInfo.accumulators_concat_same hrow hs, ← hcols] at hmerge
  simp only [foldRow, hfind]
  generalize mergeAll e.accumulators (g.partialNames.map row.field) = merged at hmerge
  obtain ⟨_ | failure, as, grown⟩ := merged
  · have hholds := h.merge hd hrow hfind hmerge
    simp only
    by_cases hfree : (decide (grown = 0) || !g.info.countMemory) = true
    · rw [if_pos hfree]
      exact ⟨⟨rfl, rfl, rfl, rfl, rfl⟩, hholds⟩
    · rw [if_neg hfree]
      have hcount : g.info.countMemory = true := by
        cases hc : g.info.countMemory with
        | true => rfl
        | false => simp [hc] at hfree
      cases hcharge : c.charge grown with
      | mk refused d =>
      cases refused with
      | some failure => exact .inr ⟨hcount, charge_refused hcharge⟩
      | none =>
        have hsize := c.charge_size grown
        rw [hcharge] at hsize
        exact ⟨⟨rfl, rfl, rfl, rfl, hsize⟩, hholds.grow grown _⟩
  · refine .inl ⟨e.key, ?_, fun as has => ?_⟩
    · rw [← h.keys]
      exact List.mem_map_of_mem he
    · rw [hmerge] at has
      cases has

/-- The group of a tuple is there if a row with such a tuple has come in. -/
theorem Holds.any_eq (h : g.Holds (firstSeen id keys) rows) (key : List Value) :
    g.has key = keys.any fun k => sameGroup k key := by
  rw [has, Bool.eq_iff_iff, List.any_eq_true, List.any_eq_true]
  constructor
  · rintro ⟨e, he, hs⟩
    have hmem : e.key ∈ firstSeen id keys := h.keys ▸ List.mem_map_of_mem he
    exact ⟨e.key, mem_of_firstSeen hmem, hs⟩
  · rintro ⟨k, hk, hs⟩
    obtain ⟨b, hb, hbk⟩ := exists_firstSeen id hk
    rw [← h.keys] at hb
    obtain ⟨e, he, rfl⟩ := List.mem_map.1 hb
    exact ⟨e, he, sameGroup_trans hbk hs⟩

/-- A group for a tuple that no row had. -/
theorem insert_holds (hshape : g.info.grouping + g.info.funcs.length = g.info.names.length)
    (hs : g.streams = false) (h : g.Holds keys rows)
    (hnew : ∀ k, k ∈ rows.filterMap g.info.tuple? → sameGroup k key = false) (c : Control) :
    (∃ failure p d, g.insert key c = (some failure, p, d) ∧ g.Refuses failure) ∨
      ∃ p d, g.insert key c = (none, p, d) ∧ g.Continues c p d ∧ p.Holds (keys ++ [key]) rows := by
  simp only [insert]
  rcases hcharge : g.chargeKey key c with ⟨_ | failure, d⟩
  · refine .inr ⟨_, d, rfl, ⟨rfl, rfl, rfl, rfl, chargeKey_size hcharge⟩, ?_, ?_, ?_⟩
    · simp only [added, hs, Bool.false_eq_true, ↓reduceIte, h.order]
    · exact List.map_append.trans (congrArg (· ++ [key]) h.keys)
    · intro e he
      rcases List.mem_append.1 he with he | he
      · exact h.accumulators e he
      · obtain rfl := List.mem_singleton.1 he
        refine GroupInfo.accumulators_of_absent hshape fun k hk => ?_
        refine Bool.eq_false_iff.2 fun hsame => ?_
        cases (sameGroup_symm hsame).symm.trans (hnew k hk)
  · exact .inl ⟨failure, g, d, rfl, chargeKey_refused hcharge⟩

/-- The group of a tuple is there when it was made sure of. -/
theorem ensure_holds (hshape : g.info.grouping + g.info.funcs.length = g.info.names.length)
    (hs : g.streams = false)
    (h : g.Holds (firstSeen id (rows.filterMap g.info.tuple?)) rows) (key : List Value)
    (c : Control) :
    (∃ failure p d, g.ensure key c = (some failure, p, d) ∧ g.Refuses failure) ∨
      ∃ p d, g.ensure key c = (none, p, d) ∧ g.Continues c p d ∧
        p.Holds (firstSeen id (rows.filterMap g.info.tuple? ++ [key])) rows := by
  have hany := h.any_eq key
  cases hseen : (rows.filterMap g.info.tuple?).any fun k => sameGroup k key with
  | true =>
    have hkeys : firstSeen id (rows.filterMap g.info.tuple? ++ [key]) =
        firstSeen id (rows.filterMap g.info.tuple?) :=
      (firstSeen_concat ..).trans (if_pos hseen)
    refine .inr ⟨g, c, ?_, ⟨rfl, rfl, rfl, rfl, rfl⟩, ?_⟩
    · rw [ensure, hany, if_pos hseen]
    · rw [hkeys]
      exact h
  | false =>
    have hkeys : firstSeen id (rows.filterMap g.info.tuple? ++ [key]) =
        firstSeen id (rows.filterMap g.info.tuple?) ++ [key] := by
      refine (firstSeen_concat ..).trans (if_neg fun hs => ?_)
      cases hseen.symm.trans hs
    rw [ensure, hany, hseen, if_neg Bool.false_ne_true, hkeys]
    exact insert_holds hshape hs h
      (fun k hk => Bool.eq_false_iff.2 (List.any_eq_false.1 hseen k hk)) c

theorem Takes.of_continues {p : Grouping} {s : Step Grouping} (h : g.Continues c p d)
    (ht : p.Takes d keys rows s) : g.Takes c keys rows s := by
  obtain ⟨signal, q, e⟩ := s
  cases signal with
  | more =>
    obtain ⟨hq, hholds⟩ := ht
    exact ⟨⟨hq.reg.trans h.reg, hq.inputReg.trans h.inputReg, hq.info.trans h.info,
      hq.phase.trans h.phase, hq.size.trans h.size⟩, hholds⟩
  | fail failure =>
    unfold Takes Refuses at ht ⊢
    rw [h.info] at ht
    exact ht
  | row | dry | request r => exact ht

/-- Where there are aggregates, a row is left out or merged into its group. -/
theorem consume_takes (hshape : g.info.grouping + g.info.funcs.length = g.info.names.length)
    (hs : g.streams = false) (h : g.Holds (firstSeen id (rows.filterMap g.info.tuple?)) rows)
    {fields : Record} (hreg : c.reg g.inputReg = .map fields) :
    g.Takes c (firstSeen id ((rows ++ [Value.map fields]).filterMap g.info.tuple?))
      (rows ++ [Value.map fields]) (g.consume c) := by
  simp only [consume, hreg, keyOf_tuple]
  rw [List.filterMap_append]
  cases hrow : g.info.tuple? (.map fields) with
  | none =>
    have hnone : [Value.map fields].filterMap g.info.tuple? = [] := by simp [hrow]
    rw [hnone, List.append_nil]
    refine ⟨⟨rfl, rfl, rfl, rfl, rfl⟩, h.order, h.keys, fun e he => ?_⟩
    have hother : ∀ k, g.info.tuple? (.map fields) = some k → sameGroup e.key k = false := by
      intro k hk
      cases hrow.symm.trans hk
    rw [GroupInfo.accumulators_concat_other hother]
    exact h.accumulators e he
  | some key =>
    have hone : [Value.map fields].filterMap g.info.tuple? = [key] := by simp [hrow]
    rw [hone]
    simp only [hs, Bool.false_eq_true, ↓reduceIte]
    rcases ensure_holds hshape hs h key c with ⟨failure, p, d, he, hrefuse⟩ | ⟨p, d, he, hp, hholds⟩
    · rw [he]
      exact .inr hrefuse
    · rw [he]
      refine Takes.of_continues hp ?_
      have hkey : ∃ k ∈ firstSeen id (rows.filterMap g.info.tuple? ++ [key]),
          sameGroup k key = true :=
        exists_firstSeen id (List.mem_append_right _ (List.mem_singleton_self key))
      rw [← hp.info] at hshape hrow
      exact foldRow_takes hshape hholds (firstSeen_pairwise _) hkey hrow d

end

/-! ## Draining aggregates -/

/-- What a drain may come to where the reference comes to `expected`: just that, and a failure only
if the reference fails, too, or the budget is spent. -/
def Meets (g : Grouping) (expected : Except QueryError (List (Value × List InputEvent))) :
    Except QueryError (List (Value × List InputEvent)) → Prop
  | .ok out => expected = .ok out
  | .error e => (∃ failure, expected = .error failure) ∨ g.Refuses e

section
variable {g : Grouping} {t : List InputEvent} {c : Control} {rows : List Value}

theorem groups_of_holds (h : g.Holds (g.info.keys rows) rows) :
    g.info.groups rows = .ok (g.groups.map g.rowOf) := by
  have hentry : ∀ e ∈ g.groups,
      (g.info.results e.key rows).map (g.info.row e.key) = .ok (g.rowOf e) := by
    intro e he
    rw [GroupInfo.results_eq, h.accumulators e he]
    rfl
  rw [GroupInfo.groups, ← h.keys, List.mapM_map]
  exact mapM_of_forall hentry

/-- Keys that differ are queued behind each other. -/
theorem Holds.queued {keys : List (List Value)} (hs : g.streams = false) (h : g.Holds keys rows)
    (hd : keys.Pairwise fun a b => sameGroup a b = false) : g.Queued := by
  refine ⟨h.keys.symm ▸ hd, ⟨[], h.order.trans h.keys.symm⟩, fun hs' => ?_⟩
  cases hs.symm.trans hs'

theorem ends_groups (hs : g.streams = false) (hphase : g.phase = .emitting)
    (hreg : g.reg < c.size) (h : g.Holds (g.info.keys rows) rows) :
    g.Ends [] c (g.Meets ((g.info.groups rows).map (·.map (·, [])))) := by
  have hq := h.queued hs (g.info.keys_pairwise rows)
  have ho : g.order = g.groups.map (·.key) := h.order.trans h.keys.symm
  refine (ends_emitting hphase hreg hq (List.nil_append _).symm ho).mono fun r hr => ?_
  rw [hr, groups_of_holds h]
  simp only [Meets, Except.map, List.map_map]
  rfl

/-- At the end of the input there is a group for each tuple, and one of no rows if there are neither
rows nor grouping columns. -/
theorem endInput_takes (hshape : g.info.grouping + g.info.funcs.length = g.info.names.length)
    (hs : g.streams = false) (h : g.Holds (firstSeen id (rows.filterMap g.info.tuple?)) rows)
    (c : Control) :
    (∃ failure p d, g.endInput c = ⟨.fail failure, p, d⟩ ∧ g.Refuses failure) ∨
      ∃ p d, g.endInput c = ⟨.more, { p with phase := .emitting }, d⟩ ∧ g.Continues c p d ∧
        p.Holds (g.info.keys rows) rows := by
  have hempty : g.groups.isEmpty = (firstSeen id (rows.filterMap g.info.tuple?)).isEmpty := by
    rw [← h.keys, List.isEmpty_map]
  simp only [endInput, hs, Bool.false_eq_true, ↓reduceIte]
  by_cases hnone : (g.groups.isEmpty && decide (g.info.grouping = 0)) = true
  · rw [if_pos hnone]
    have hkeys : g.info.keys rows = [[]] := by
      rw [hempty] at hnone
      rw [GroupInfo.keys, if_pos hnone]
    have hrows : rows.filterMap g.info.tuple? = [] := by
      rw [Bool.and_eq_true, hempty, List.isEmpty_iff] at hnone
      exact firstSeen_eq_nil.1 hnone.1
    rw [hrows] at h
    have hnew : ∀ k, k ∈ rows.filterMap g.info.tuple? → sameGroup k [] = false := by
      rw [hrows]
      exact List.forall_mem_nil _
    rcases insert_holds hshape hs h hnew c with ⟨failure, p, d, he, hrefuse⟩ | ⟨p, d, he, hp, hh⟩
    · rw [he]
      exact .inl ⟨failure, p, d, rfl, hrefuse⟩
    · rw [he, hkeys]
      exact .inr ⟨p, d, rfl, hp, hh⟩
  · rw [if_neg hnone]
    refine .inr ⟨g, c, rfl, ⟨rfl, rfl, rfl, rfl, rfl⟩, ?_⟩
    rw [hempty] at hnone
    rw [GroupInfo.keys, if_neg hnone]
    exact h

theorem Meets.of_info {p : Grouping} (h : p.info = g.info)
    {expected r : Except QueryError (List (Value × List InputEvent))} (hr : p.Meets expected r) :
    g.Meets expected r := by
  cases r with
  | ok out => exact hr
  | error e =>
    unfold Meets Refuses at hr ⊢
    rw [h] at hr
    exact hr

/-- When the input has ended, the groups come out. -/
theorem ends_aggregates_end (hshape : g.info.grouping + g.info.funcs.length = g.info.names.length)
    (hs : g.streams = false) (hphase : g.phase = .consuming)
    (hreg : g.reg < c.size) (hc : c.needsContinuation = false)
    (h : g.Holds (firstSeen id (rows.filterMap g.info.tuple?)) rows) :
    g.Ends [] c (g.Meets ((g.info.groups rows).map (·.map (·, [])))) := by
  have hstep := stepOn_nil hphase hc
  rcases endInput_takes hshape hs h c with ⟨failure, p, d, he, hrefuse⟩ | ⟨p, d, he, hp, hholds⟩
  · rw [he] at hstep
    exact ends_fail hstep (.inr hrefuse)
  · rw [he] at hstep
    rw [← hp.info] at hholds ⊢
    have hreg' : p.reg < d.size := by
      rw [hp.reg, hp.size]
      exact hreg
    have hsp : p.streams = false := (congrArg (·.funcs.isEmpty) hp.info).trans hs
    have hemit : Ends { p with phase := .emitting } [] d _ :=
      ends_groups hsp rfl hreg' ⟨hholds.order, hholds.keys, hholds.accumulators⟩
    exact ends_more hstep (hemit.mono fun r hr => Meets.of_info hp.info hr)

/-- Aggregates come out when the input has ended, whatever the calls it takes. -/
theorem ends_aggregates (hshape : g.info.grouping + g.info.funcs.length = g.info.names.length)
    (hs : g.streams = false) (hphase : g.phase = .consuming)
    (hreg : g.reg < c.size) (hinput : g.inputReg < c.size)
    (hrecords : ∀ a ∈ InputEvent.rows t, ∃ fields, a.row = .map fields)
    (h : g.Holds (firstSeen id (rows.filterMap g.info.tuple?)) rows) :
    g.Ends t c (g.Meets ((g.info.groups (rows ++ (InputEvent.rows t).map (·.row))).map
      (·.map (·, [])))) := by
  induction t generalizing g c rows with
  | nil =>
    have hall : rows ++ (InputEvent.rows []).map (·.row) = rows := List.append_nil rows
    rw [hall]
    refine ends_nil hphase fun d hd hc => ?_
    exact ends_aggregates_end hshape hs hphase (hd.symm ▸ hreg) hc h
  | cons event t ih =>
    have hstep := stepOn_consuming hphase (event :: t) c
    cases event with
    | more => exact ends_more hstep (ih hshape hs hphase hreg hinput hrecords h)
    | pause => exact ends_pause hstep rfl (ih hshape hs hphase hreg hinput hrecords h)
    | row a =>
      obtain ⟨⟨fields, hrow⟩, hrest⟩ := List.forall_mem_cons.1 hrecords
      have hsize := c.arrive_size g.inputReg a
      have harrive : (c.arrive g.inputReg a).reg g.inputReg = .map fields :=
        (c.arrive_reg hinput a).trans hrow
      have htakes := consume_takes hshape hs h harrive
      have hall : rows ++ (InputEvent.rows (.row a :: t)).map (·.row) =
          rows ++ [Value.map fields] ++ (InputEvent.rows t).map (·.row) := by
        rw [← hrow, List.append_assoc]
        rfl
      rw [hall]
      simp only [InputEvent.play, onInput] at hstep
      generalize g.consume (c.arrive g.inputReg a) = consumed at htakes hstep
      obtain ⟨signal, p, d⟩ := consumed
      cases signal with
      | more =>
        obtain ⟨hp, hholds⟩ := htakes
        rw [← hp.info] at hshape hholds ⊢
        have hsp : p.streams = false := (congrArg (·.funcs.isEmpty) hp.info).trans hs
        have hreg' : p.reg < d.size := by
          rw [hp.reg, hp.size, hsize]
          exact hreg
        have hinput' : p.inputReg < d.size := by
          rw [hp.inputReg, hp.size, hsize]
          exact hinput
        have hrun := ih hshape hsp (hp.phase.trans hphase) hreg' hinput' hrest hholds
        exact ends_more hstep (hrun.mono fun r hr => Meets.of_info hp.info hr)
      | fail failure =>
        refine ends_fail hstep ?_
        rcases htakes with ⟨k, hk, hfail⟩ | hrefuse
        · obtain ⟨e, he⟩ := GroupInfo.exists_groups_error hk hfail _
          refine .inl ⟨e, ?_⟩
          rw [he]
          rfl
        · exact .inr hrefuse
      | row | dry | request r => exact htakes.elim

end

/-! ## Draining distinct tuples -/

section
variable {g : Grouping} {t : List InputEvent} {c : Control}

/-- The tuples that are still to come out: those of the input of which no group was kept. -/
def unseen (g : Grouping) (t : List InputEvent) : List (List Value × List InputEvent) :=
  (firstSeen Prod.fst (g.info.arrivals t)).filter fun p =>
    !g.has p.1

/-- The rows of such tuples. -/
def announced (g : Grouping) (t : List InputEvent) : List (Value × List InputEvent) :=
  (g.unseen t).map fun p => (g.info.row p.1 [], p.2)

theorem unseen_of_left_out {a : InputRow} (h : g.info.tuple? a.row = none) :
    g.unseen (.row a :: t) = g.unseen t := by
  simp only [unseen, GroupInfo.arrivals, h]
  rfl

theorem unseen_of_seen {a : InputRow} {key : List Value} (h : g.info.tuple? a.row = some key)
    (hseen : g.has key = true) :
    g.unseen (.row a :: t) = g.unseen t := by
  have harr : g.info.arrivals (.row a :: t) = (key, t) :: g.info.arrivals t := by
    rw [GroupInfo.arrivals, h]
    rfl
  rw [unseen, harr, firstSeen, List.filter_cons_of_neg (by simp [hseen]), List.filter_filter]
  refine List.filter_congr fun p _ => ?_
  -- what is of the group of the row is of a group that was kept
  cases hs : sameGroup key p.1 with
  | false => simp
  | true =>
    obtain ⟨e, he, hek⟩ := List.any_eq_true.1 hseen
    have hany : g.has p.1 = true :=
      List.any_eq_true.2 ⟨e, he, sameGroup_trans hek hs⟩
    simp [hany]

theorem unseen_of_new {a : InputRow} {key : List Value} (h : g.info.tuple? a.row = some key)
    (hnew : g.has key = false) :
    g.unseen (.row a :: t) = (key, t) :: (g.added key).unseen t := by
  have harr : g.info.arrivals (.row a :: t) = (key, t) :: g.info.arrivals t := by
    rw [GroupInfo.arrivals, h]
    rfl
  rw [unseen, harr, firstSeen, List.filter_cons_of_pos (by simp [hnew]), List.filter_filter]
  refine congrArg ((key, t) :: ·) (List.filter_congr fun p _ => ?_)
  simp [has, added, entry]

/-- A row of a tuple that was kept, or that has none, is passed over. -/
theorem consume_passes (hs : g.streams = true) {fields : Record}
    (hreg : c.reg g.inputReg = .map fields)
    (h : ∀ key, g.info.tuple? (.map fields) = some key →
      g.has key = true) : g.consume c = ⟨.more, g, c⟩ := by
  simp only [consume, hreg, keyOf_tuple]
  cases hrow : g.info.tuple? (.map fields) with
  | none => rfl
  | some key => simp only [hs, ↓reduceIte, streamRow, h key hrow]

/-- A new tuple comes out at once, unless the budget refuses it. -/
theorem consume_new (hs : g.streams = true) {fields : Record} {key : List Value}
    (hreg : c.reg g.inputReg = .map fields) (hrow : g.info.tuple? (.map fields) = some key)
    (hnew : g.has key = false) :
    (∃ failure p d, g.consume c = ⟨.fail failure, p, d⟩ ∧ g.Refuses failure) ∨
      ∃ d : Control, d.size = c.size ∧
        g.consume c = ⟨.row, g.added key, d.setReg g.reg (g.makeRow key [])⟩ := by
  simp only [consume, hreg, keyOf_tuple, hrow]
  simp only [hs, ↓reduceIte, streamRow, hnew, Bool.false_eq_true, insert]
  rcases hcharge : g.chargeKey key c with ⟨_ | failure, d⟩
  · exact .inr ⟨d, chargeKey_size hcharge, rfl⟩
  · exact .inl ⟨failure, g, d, rfl, chargeKey_refused hcharge⟩

theorem Meets.cons {expected r : Except QueryError (List (Value × List InputEvent))}
    (h : g.Meets expected r) (p : Value × List InputEvent) :
    g.Meets (expected.map (p :: ·)) (r.map (p :: ·)) := by
  cases r with
  | ok out =>
    rw [show expected = .ok out from h]
    rfl
  | error e =>
    refine h.imp_left fun ⟨failure, he⟩ => ⟨failure, ?_⟩
    rw [he]
    rfl

/-- A row that is passed over leaves everything to those that follow. -/
theorem ends_passed (hs : g.streams = true) (hphase : g.phase = .consuming)
    (hinput : g.inputReg < c.size) {a : InputRow} {fields : Record} (hrow : a.row = .map fields)
    (h : ∀ key, g.info.tuple? a.row = some key →
      g.has key = true)
    (hrest : g.Ends t (c.arrive g.inputReg a) (g.Meets (.ok (g.announced t)))) :
    g.Ends (.row a :: t) c (g.Meets (.ok (g.announced (.row a :: t)))) := by
  have harrive : (c.arrive g.inputReg a).reg g.inputReg = .map fields :=
    (c.arrive_reg hinput a).trans hrow
  have hunseen : g.unseen (.row a :: t) = g.unseen t := by
    cases htuple : g.info.tuple? a.row with
    | none => exact unseen_of_left_out htuple
    | some key => exact unseen_of_seen htuple (h key htuple)
  have hstep : g.stepOn (.row a :: t) c = ⟨.more, (g, t), c.arrive g.inputReg a⟩ := by
    rw [stepOn_consuming hphase]
    simp only [InputEvent.play, onInput]
    rw [consume_passes hs harrive (hrow ▸ h)]
    rfl
  rw [announced, hunseen]
  exact ends_more hstep hrest

/-- A row with a new tuple makes it come out before all those that follow. -/
theorem ends_new (hs : g.streams = true)
    (hphase : g.phase = .consuming) (hreg : g.reg < c.size) (hinput : g.inputReg < c.size)
    {a : InputRow} {fields : Record} (hrow : a.row = .map fields) {key : List Value}
    (htuple : g.info.tuple? a.row = some key)
    (hnew : g.has key = false)
    (hrest : ∀ d : Control, d.size = c.size →
      (g.added key).Ends t d (g.Meets (.ok ((g.added key).announced t)))) :
    g.Ends (.row a :: t) c (g.Meets (.ok (g.announced (.row a :: t)))) := by
  have hsize := c.arrive_size g.inputReg a
  have harrive : (c.arrive g.inputReg a).reg g.inputReg = .map fields :=
    (c.arrive_reg hinput a).trans hrow
  have hstep := stepOn_consuming hphase (.row a :: t) c
  simp only [InputEvent.play, onInput] at hstep
  rcases consume_new hs harrive (hrow ▸ htuple) hnew with
    ⟨failure, p, d, he, hrefuse⟩ | ⟨d, hd, he⟩
  · rw [he] at hstep
    exact ends_fail hstep (.inr hrefuse)
  rw [he] at hstep
  have hout : g.announced (.row a :: t) =
      (g.info.row key [], t) :: (g.added key).announced t := by
    rw [announced, unseen_of_new htuple hnew]
    rfl
  have hsize' : (d.setReg g.reg (g.makeRow key [])).size = c.size :=
    (d.setReg_size ..).trans (hd.trans hsize)
  have hregd : g.reg < d.size := by
    rw [hd, hsize]
    exact hreg
  have hread : (d.setReg g.reg (g.makeRow key [])).reg g.reg = g.info.row key [] :=
    Control.setReg_reg hregd _
  refine ends_row hstep (hrest _ hsize') (hrest _ hsize') fun r hr => ?_
  rw [hout]
  have hcons := Meets.cons hr (g.info.row key [], t)
  rw [← hread] at hcons ⊢
  exact hcons

/-- Distinct tuples come out with the first row that has them, whatever the calls it takes. -/
theorem ends_distinct (hs : g.streams = true)
    (hphase : g.phase = .consuming) (hreg : g.reg < c.size) (hinput : g.inputReg < c.size)
    (hrecords : ∀ a ∈ InputEvent.rows t, ∃ fields, a.row = .map fields) :
    g.Ends t c (g.Meets (.ok (g.announced t))) := by
  induction t generalizing g c with
  | nil =>
    refine ends_nil hphase fun d hd hc => ?_
    have hstep := stepOn_nil hphase hc
    simp only [endInput, hs, ↓reduceIte] at hstep
    exact ends_dry hstep hc rfl
  | cons event t ih =>
    cases event with
    | more =>
      exact ends_more (stepOn_consuming hphase ..) (ih hs hphase hreg hinput hrecords)
    | pause =>
      exact ends_pause (stepOn_consuming hphase ..) rfl
        (ih hs hphase hreg hinput hrecords)
    | row a =>
      obtain ⟨⟨fields, hrow⟩, hrest⟩ := List.forall_mem_cons.1 hrecords
      by_cases hpass : ∀ key, g.info.tuple? a.row = some key →
          g.has key = true
      · have hsize := c.arrive_size g.inputReg a
        exact ends_passed hs hphase hinput hrow hpass
          (ih hs hphase (hsize.symm ▸ hreg) (hsize.symm ▸ hinput) hrest)
      · push Not at hpass
        obtain ⟨key, htuple, hnew⟩ := hpass
        refine ends_new hs hphase hreg hinput hrow htuple (Bool.not_eq_true _ ▸ hnew) ?_
        intro d hd
        have hadded : (g.added key).Ends t d _ :=
          ih hs hphase (hd.symm ▸ hreg) (hd.symm ▸ hinput) hrest
        exact hadded.mono fun r hr => Meets.of_info rfl hr

end

/-! ## All that comes out -/

/-- A grouping that has not begun, as it is made for a step. -/
structure Fresh (g : Grouping) : Prop where
  phase : g.phase = .consuming
  groups : g.groups = []
  order : g.order = []
  shape : g.info.grouping + g.info.funcs.length = g.info.names.length

/-- The group steps of a plan are made fresh. -/
theorem fresh_of_ofStep {shards : List Int} {step : PlanStep} {g : Grouping} {input : Operator}
    (h : Operator.ofStep shards step = .ok (.group g input)) : g.Fresh := by
  cases step with
  | group reg inner info =>
    simp only [Operator.ofStep, bind, Except.bind, pure, Except.pure] at h
    by_cases hshape : (info.grouping + info.funcs.length != info.names.length) = true
    · rw [if_pos hshape] at h
      cases h
    · rw [if_neg hshape] at h
      split at h
      · cases h
      · cases h
        refine ⟨rfl, rfl, rfl, ?_⟩
        simpa using hshape
  | select reg source info columns offset limit =>
    simp only [Operator.ofStep, bind, Except.bind, pure, Except.pure] at h
    repeat' split at h
    all_goals cases h
  | sort reg inner specs countMemory =>
    simp only [Operator.ofStep, bind, Except.bind, pure, Except.pure] at h
    repeat' split at h
    all_goals cases h
  | receive reg info =>
    simp only [Operator.ofStep, bind, Except.bind, pure, Except.pure] at h
    split at h <;> cases h
  | _ => cases h

theorem ends_drained {g : Grouping} (hf : g.Fresh) {t : List InputEvent} {c : Control}
    (hreg : g.reg < c.size) (hinput : g.inputReg < c.size)
    (hrecords : ∀ a ∈ InputEvent.rows t, ∃ fields, a.row = .map fields) :
    g.Ends t c (g.Meets (g.info.drained t)) := by
  cases hs : g.streams with
  | true =>
    have hempty : g.info.funcs.isEmpty = true := hs
    have hout : g.announced t =
        (firstSeen Prod.fst (g.info.arrivals t)).map fun p => (g.info.row p.1 [], p.2) := by
      have hall : g.unseen t = firstSeen Prod.fst (g.info.arrivals t) := by
        simp only [unseen, has, hf.groups]
        exact List.filter_true _
      rw [announced, hall]
    rw [GroupInfo.drained, if_pos hempty, ← hout]
    exact ends_distinct hs hf.phase hreg hinput hrecords
  | false =>
    have hsome : ¬g.info.funcs.isEmpty = true := Bool.eq_false_iff.1 hs
    have hholds : g.Holds (firstSeen id (List.filterMap g.info.tuple? [])) [] := by
      refine ⟨hf.order, ?_, ?_⟩
      · rw [hf.groups]
        rfl
      · intro e he
        rw [hf.groups] at he
        cases he
    rw [GroupInfo.drained, if_neg hsome]
    have hends := ends_aggregates hf.shape hs hf.phase hreg hinput hrecords hholds
    rw [List.nil_append] at hends
    exact hends

/-- Where memory is not counted, nothing keeps a step from coming to what the reference comes to. -/
theorem drains_of_drained {g : Grouping} (hf : g.Fresh) {t : List InputEvent} {c : Control}
    (hreg : g.reg < c.size) (hinput : g.inputReg < c.size)
    (hrecords : ∀ a ∈ InputEvent.rows t, ∃ fields, a.row = .map fields)
    (hfree : g.info.countMemory = false)
    {out : List (Value × List InputEvent)} (hout : g.info.drained t = .ok out) :
    g.Drains t c (.ok out) := by
  obtain ⟨⟨r, hr⟩, hall⟩ := ends_drained hf hreg hinput hrecords
  have hmeets := hall r hr
  cases r with
  | ok out' =>
    obtain rfl := Except.ok.inj (hout.symm.trans hmeets)
    exact hr
  | error e =>
    rcases hmeets with ⟨failure, he⟩ | ⟨hcount, -⟩
    · cases hout.symm.trans he
    · rw [hfree] at hcount
      cases hcount

/-- Draining a group step always comes to an end. If it does not fail, then just the rows of the
reference have come out, each when the reference says: a tuple of its own with the first row that
has it, aggregates after all of the input. It fails only if the reference cannot be had or the
budget is spent. Rows have just the columns of the step if these have names of their own, and how
memory is counted and released makes no difference to them. -/
theorem drains_reference {g : Grouping} (hf : g.Fresh) {t : List InputEvent} {c : Control}
    (hreg : g.reg < c.size) (hinput : g.inputReg < c.size)
    (hrecords : ∀ a ∈ InputEvent.rows t, ∃ fields, a.row = .map fields) :
    (∃ r, g.Drains t c r) ∧
    (∀ out, g.Drains t c (.ok out) → g.info.drained t = .ok out) ∧
    (∀ e, g.Drains t c (.error e) →
      (∃ failure, g.info.drained t = .error failure) ∨ g.Refuses e) ∧
    (g.info.names.Nodup → ∀ key results,
      g.info.row key results = .map (g.info.names.zip (key ++ results))) ∧
    ∀ (removeProduced countMemory : Bool) (d : Control), d.size = c.size → ∀ out out',
      g.Drains t c (.ok out) →
      Drains { g with info := { g.info with removeProduced, countMemory } } t d (.ok out') →
      out' = out := by
  obtain ⟨hends, hall⟩ := ends_drained hf hreg hinput hrecords
  refine ⟨hends, fun out => hall (.ok out), fun e => hall (.error e), GroupInfo.row_eq, ?_⟩
  intro removeProduced countMemory d hd out out' hout hout'
  rw [← hd] at hreg hinput
  have hf' : Fresh { g with info := { g.info with removeProduced, countMemory } } :=
    ⟨hf.phase, hf.groups, hf.order, hf.shape⟩
  have hsame : g.info.drained t = .ok out' :=
    (GroupInfo.drained_memory ..).symm.trans
      ((ends_drained hf' hreg hinput hrecords).2 (.ok out') hout')
  have hfirst : g.info.drained t = .ok out := hall (.ok out) hout
  exact Except.ok.inj (hsame.symm.trans hfirst)

/-- A sum over two groups with a row that is left out, and distinct tuples with one that is not,
each over two calls. -/
theorem drains_reference_twoCalls :
    let row (fields : Record) : InputEvent := .row ⟨.map fields, [], id⟩
    let sums : Grouping :=
      { reg := 1, inputReg := 0, info := ⟨1, ["a", "n"], [.sum], false, true, false⟩ }
    let tuples : Grouping :=
      { reg := 1, inputReg := 0, info := ⟨1, ["a"], [], true, false, false⟩ }
    let t : List InputEvent := [row [("a", .integer 1), ("n", .integer 2)],
      row [("n", .integer 5)], .pause, row [("a", .long 2), ("n", .integer 7)], .more,
      row [("a", .long 1), ("n", .long 3)]]
    sums.Drains t (.ofConfig {} 2) (.ok [
      (.map [("a", .integer 1), ("n", .long 5)], []),
      (.map [("a", .long 2), ("n", .integer 7)], [])]) ∧
    tuples.Drains t (.ofConfig {} 2) (.ok [
      (.map [("a", .integer 1)], t.drop 1),
      (.map [("a", .null)], t.drop 2),
      (.map [("a", .long 2)], t.drop 4)]) := by
  intro row sums tuples t
  have hrecords : ∀ a ∈ InputEvent.rows t, ∃ fields, a.row = .map fields := by
    simp [t, row, InputEvent.rows]
  have hsums : sums.info.drained t = .ok [
      (.map [("a", .integer 1), ("n", .long 5)], []),
      (.map [("a", .long 2), ("n", .integer 7)], [])] := by rfl
  have htuples : tuples.info.drained t = .ok [
      (.map [("a", .integer 1)], t.drop 1),
      (.map [("a", .null)], t.drop 2),
      (.map [("a", .long 2)], t.drop 4)] := by rfl
  constructor
  · obtain ⟨⟨r, hr⟩, hok, herror, -⟩ := drains_reference (g := sums) (c := .ofConfig {} 2)
      ⟨rfl, rfl, rfl, rfl⟩ (by decide) (by decide) hrecords
    cases r with
    | ok out =>
      obtain rfl := Except.ok.inj ((hok out hr).symm.trans hsums)
      exact hr
    | error e =>
      rcases herror e hr with ⟨failure, he⟩ | ⟨hcount, -⟩
      · cases hsums.symm.trans he
      · cases hcount
  · obtain ⟨⟨r, hr⟩, hok, herror, -⟩ := drains_reference (g := tuples) (c := .ofConfig {} 2)
      ⟨rfl, rfl, rfl, rfl⟩ (by decide) (by decide) hrecords
    cases r with
    | ok out =>
      obtain rfl := Except.ok.inj ((hok out hr).symm.trans htuples)
      exact hr
    | error e =>
      rcases herror e hr with ⟨failure, he⟩ | ⟨hcount, -⟩
      · cases htuples.symm.trans he
      · cases hcount

end Grouping
end ShardQuery
