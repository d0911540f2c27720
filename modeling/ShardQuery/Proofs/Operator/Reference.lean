import ShardQuery.Proofs.Operator.Accumulation
import ShardQuery.Proofs.Operator.Arrivals

/-!
What a group step is for, told of all its input rows at once: the grouping tuples in the order in
which they were first seen, the rows of each group, and for each function what merging their columns
comes to.
-/

namespace ShardQuery

/-! ## First of a kind -/

/-- The first one of each group, in their order. -/
def firstSeen {α : Type} (key : α → List Value) : List α → List α
  | [] => []
  | a :: rest => a :: (firstSeen key rest).filter fun b => !sameGroup (key a) (key b)

section
variable {α : Type} {key : α → List Value} {a b : α} {as : List α}

theorem mem_of_firstSeen (h : a ∈ firstSeen key as) : a ∈ as := by
  induction as with
  | nil => exact h
  | cons b rest ih =>
    rcases List.mem_cons.1 h with rfl | h
    · exact List.mem_cons_self ..
    · exact List.mem_cons_of_mem _ (ih (List.mem_of_mem_filter h))

/-- Whatever there is is of the group of one that was seen first. -/
theorem exists_firstSeen (key : α → List Value) (h : a ∈ as) :
    ∃ b ∈ firstSeen key as, sameGroup (key b) (key a) = true := by
  induction as with
  | nil => cases h
  | cons b rest ih =>
    by_cases hs : sameGroup (key b) (key a) = true
    · exact ⟨b, List.mem_cons_self .., hs⟩
    rcases List.mem_cons.1 h with rfl | h
    · exact (hs (sameGroup_refl _)).elim
    obtain ⟨d, hd, hda⟩ := ih h
    refine ⟨d, List.mem_cons_of_mem _ (List.mem_filter.2 ⟨hd, ?_⟩), hda⟩
    cases hbd : sameGroup (key b) (key d) with
    | false => rfl
    | true => exact (hs (sameGroup_trans hbd hda)).elim

theorem firstSeen_pairwise (as : List α) :
    (firstSeen key as).Pairwise fun a b => sameGroup (key a) (key b) = false := by
  induction as with
  | nil => exact .nil
  | cons a rest ih =>
    refine List.pairwise_cons.2 ⟨fun b hb => ?_, ih.filter _⟩
    have hnew := (List.mem_filter.1 hb).2
    cases hs : sameGroup (key a) (key b) with
    | false => rfl
    | true =>
      rw [hs] at hnew
      cases hnew

/-- One more is seen first if its group was not seen before. -/
theorem firstSeen_concat (as : List α) (a : α) :
    firstSeen key (as ++ [a]) =
      if as.any fun b => sameGroup (key b) (key a) then firstSeen key as
      else firstSeen key as ++ [a] := by
  induction as with
  | nil => rfl
  | cons b rest ih =>
    rw [List.cons_append, firstSeen, ih, firstSeen, List.any_cons]
    cases hrest : rest.any fun b => sameGroup (key b) (key a) with
    | true => rw [if_pos rfl, if_pos (Bool.or_true _)]
    | false =>
      rw [if_neg Bool.false_ne_true, List.filter_append, Bool.or_false]
      cases hs : sameGroup (key b) (key a) <;> simp [hs]

theorem mem_firstSeen_append (h : a ∈ firstSeen key as) (bs : List α) :
    a ∈ firstSeen key (as ++ bs) := by
  induction as with
  | nil => cases h
  | cons b rest ih =>
    rcases List.mem_cons.1 h with rfl | h
    · exact List.mem_cons_self ..
    · obtain ⟨ha, hnew⟩ := List.mem_filter.1 h
      exact List.mem_cons_of_mem _ (List.mem_filter.2 ⟨ih ha, hnew⟩)

theorem firstSeen_map {β : Type} (f : β → α) (bs : List β) :
    firstSeen key (bs.map f) = (firstSeen (key ∘ f) bs).map f := by
  induction bs with
  | nil => rfl
  | cons b rest ih =>
    rw [List.map_cons, firstSeen, ih, List.filter_map]
    rfl

theorem firstSeen_eq_nil : firstSeen key as = [] ↔ as = [] := by
  cases as with
  | nil => exact Iff.rfl
  | cons a rest => exact iff_of_false (List.cons_ne_nil a _) (List.cons_ne_nil a _)

end

/-! ## Failing early or not at all -/

section
variable {α β γ : Type} {f : α → Except QueryError β}

/-- All succeed just if each does. -/
theorem mapM_eq_ok_iff {as : List α} {bs : List β} :
    as.mapM f = .ok bs ↔ List.Forall₂ (fun a b => f a = .ok b) as bs := by
  induction as generalizing bs with
  | nil =>
    rw [List.forall₂_nil_left_iff]
    exact ⟨fun h => (Except.ok.inj h).symm, fun h => h ▸ rfl⟩
  | cons a rest ih =>
    rw [List.mapM_cons, List.forall₂_cons_left_iff]
    constructor
    · intro h
      cases ha : f a with
      | error e =>
        rw [ha] at h
        cases h
      | ok b =>
        cases hrest : rest.mapM f with
        | error e =>
          rw [ha, hrest] at h
          cases h
        | ok bs =>
          rw [ha, hrest] at h
          exact ⟨b, bs, rfl, ih.1 hrest, (Except.ok.inj h).symm⟩
    · rintro ⟨b, bs, ha, hrest, rfl⟩
      rw [ha, ih.2 hrest]
      rfl

theorem mapM_of_forall {g : α → β} {as : List α} (h : ∀ a ∈ as, f a = .ok (g a)) :
    as.mapM f = .ok (as.map g) :=
  mapM_eq_ok_iff.2 (List.forall₂_map_right_iff.2 (List.forall₂_same.2 h))

theorem exists_of_mapM {as : List α} {bs : List β} (h : as.mapM f = .ok bs) {a : α} (ha : a ∈ as) :
    ∃ b, f a = .ok b := by
  rw [mapM_eq_ok_iff] at h
  induction h with
  | nil => cases ha
  | cons hb _ ih =>
    rcases List.mem_cons.1 ha with rfl | ha
    · exact ⟨_, hb⟩
    · exact ih ha

/-- Results of one list are in a relation if they are so one by one. -/
theorem forall₂_of_mapM {g : α → Except QueryError γ} {R : β → γ → Prop} {as : List α}
    {bs : List β} {cs : List γ} (h : as.mapM f = .ok bs) (h' : as.mapM g = .ok cs)
    (hR : ∀ a ∈ as, ∀ b c, f a = .ok b → g a = .ok c → R b c) : List.Forall₂ R bs cs := by
  rw [mapM_eq_ok_iff] at h h'
  induction h generalizing cs with
  | nil =>
    cases h'
    exact .nil
  | cons hb _ ih =>
    obtain ⟨hfirst, hrest⟩ := List.forall_mem_cons.1 hR
    cases h' with
    | cons hc hcs => exact .cons (hfirst _ _ hb hc) (ih hcs hrest)

theorem mapM_map_result (g : β → γ) (as : List α) :
    (as.mapM fun a => (f a).map g) = (as.mapM f).map (List.map g) := by
  induction as with
  | nil => rfl
  | cons a rest ih =>
    rw [List.mapM_cons, List.mapM_cons, ih]
    cases f a with
    | error e => rfl
    | ok b => cases rest.mapM f <;> rfl

theorem exists_mapM {as : List α} (h : ∀ a ∈ as, ∃ b, f a = .ok b) : ∃ bs, as.mapM f = .ok bs := by
  induction as with
  | nil => exact ⟨[], rfl⟩
  | cons a rest ih =>
    obtain ⟨⟨b, hb⟩, hrest⟩ := List.forall_mem_cons.1 h
    obtain ⟨bs, hbs⟩ := ih hrest
    exact ⟨b :: bs, by rw [List.mapM_cons, hb, hbs]; rfl⟩

end

/-! ## Records of columns -/

theorem Record.put_of_absent {r : Record} {name : String} (h : ∀ f ∈ r, f.1 ≠ name) (v : Value) :
    r.put name v = r ++ [(name, v)] := by
  induction r with
  | nil => rfl
  | cons f rest ih =>
    obtain ⟨hf, hrest⟩ := List.forall_mem_cons.1 h
    rw [put, if_neg hf, ih hrest]
    rfl

/-- Fields with names of their own make a record of just these. -/
theorem Record.ofFields_of_nodup {fields : List (String × Value)}
    (h : (fields.map (·.1)).Nodup) : ofFields fields = fields := by
  induction fields using List.reverseRecOn with
  | nil => rfl
  | append_singleton fields f ih =>
    rw [List.map_append, List.nodup_append] at h
    obtain ⟨hfields, -, hnew⟩ := h
    have hfold : ofFields (fields ++ [f]) = (ofFields fields).put f.1 f.2 := by
      rw [ofFields, List.foldl_concat]
      rfl
    rw [hfold, ih hfields]
    refine put_of_absent (fun x hx => ?_) f.2
    exact hnew x.1 (List.mem_map_of_mem hx) f.1 (List.mem_singleton_self _)

/-! ## The reference -/

namespace GroupInfo

/-- The grouping values of a row. A row that lacks one is left out; where only distinct tuples are
asked for, the value is null instead. -/
def tuple? (info : GroupInfo) (row : Value) : Option (List Value) :=
  let values := (info.names.take info.grouping).map row.field
  if info.distinct && info.funcs.isEmpty then some (values.map Value.orNull)
  else if values.any Value.isEmpty then none
  else some values

/-- The functions with the columns of the input that they merge. -/
def columns (info : GroupInfo) : List (AggregateFunc × String) :=
  info.funcs.zip (info.names.drop info.grouping)

/-- The rows of a group. -/
def members (info : GroupInfo) (key : List Value) (rows : List Value) : List Value :=
  rows.filter fun row => (info.tuple? row).any (sameGroup key)

/-- The tuples of the groups. With no grouping columns there is a group even of no rows. -/
def keys (info : GroupInfo) (rows : List Value) : List (List Value) :=
  let keys := firstSeen id (rows.filterMap info.tuple?)
  if keys.isEmpty && info.grouping = 0 then [[]] else keys

/-- The row of a group. -/
def row (info : GroupInfo) (key results : List Value) : Value :=
  .map (Record.ofFields (info.names.zip (key ++ results)))

/-- What the functions yield for a group. -/
def results (info : GroupInfo) (key rows : List Value) : Except QueryError (List Value) :=
  info.columns.mapM fun col => col.1.ofPartials ((info.members key rows).map (·.field col.2))

/-- The rows of all groups. -/
def groups (info : GroupInfo) (rows : List Value) : Except QueryError (List Value) :=
  (info.keys rows).mapM fun key => (info.results key rows).map (info.row key)

/-- The tuples of the input rows, each with what is still to come after its row. -/
def arrivals (info : GroupInfo) : List InputEvent → List (List Value × List InputEvent)
  | [] => []
  | .row a :: rest => ((info.tuple? a.row).map (·, rest)).toList ++ info.arrivals rest
  | .more :: rest | .pause :: rest => info.arrivals rest

/-- All rows that come out, each with what is still to come of the input. Distinct tuples come out
with the first row that has them, and aggregates when the input has ended. -/
def drained (info : GroupInfo) (t : List InputEvent) :
    Except QueryError (List (Value × List InputEvent)) :=
  if info.funcs.isEmpty then
    .ok ((firstSeen Prod.fst (info.arrivals t)).map fun p => (info.row p.1 [], p.2))
  else (info.groups ((InputEvent.rows t).map (·.row))).map (·.map (·, []))

theorem drained_memory (info : GroupInfo) (removeProduced countMemory : Bool)
    (t : List InputEvent) :
    ({ info with removeProduced, countMemory } : GroupInfo).drained t = info.drained t := by
  have harrivals :
      ({ info with removeProduced, countMemory } : GroupInfo).arrivals t = info.arrivals t := by
    induction t with
    | nil => rfl
    | cons event t ih =>
      cases event with
      | row a => exact congrArg (((info.tuple? a.row).map (·, t)).toList ++ ·) ih
      | more | pause => exact ih
  rw [drained, harrivals]
  rfl

/-- The accumulators of a group. -/
def accumulators (info : GroupInfo) (key rows : List Value) :
    Except QueryError (List Accumulator) :=
  info.columns.mapM fun col =>
    ((info.members key rows).map (·.field col.2)).foldlM Accumulator.absorb (.ofFunc col.1)

section
variable {info : GroupInfo} {key k : List Value} {rows more : List Value}

/-- Where the columns have names of their own, a row has just these columns. -/
theorem row_eq (hnames : info.names.Nodup) (key results : List Value) :
    info.row key results = .map (info.names.zip (key ++ results)) := by
  refine congrArg Value.map (Record.ofFields_of_nodup ?_)
  rw [List.zip_eq_zip_take_min, List.map_fst_zip]
  · exact hnames.sublist (List.take_sublist ..)
  · rw [List.length_take, List.length_take]
    omega

theorem results_eq (info : GroupInfo) (key rows : List Value) :
    info.results key rows = (info.accumulators key rows).map (·.map Accumulator.result) :=
  mapM_map_result ..

theorem members_append : info.members key (rows ++ more) =
    info.members key rows ++ info.members key more := List.filter_append ..

theorem members_of_absent (h : ∀ k ∈ rows.filterMap info.tuple?, sameGroup key k = false) :
    info.members key rows = [] := by
  refine List.filter_eq_nil_iff.2 fun row hrow hs => ?_
  obtain ⟨k, hk, hs⟩ := (Option.any_eq_true ..).1 hs
  have hnew := h k (List.mem_filterMap.2 ⟨row, hrow, hk⟩)
  rw [hnew] at hs
  cases hs

/-- The accumulators of a group without rows. -/
theorem accumulators_of_absent (hshape : info.grouping + info.funcs.length = info.names.length)
    (h : ∀ k ∈ rows.filterMap info.tuple?, sameGroup key k = false) :
    info.accumulators key rows = .ok (info.funcs.map Accumulator.ofFunc) := by
  have hfuncs : info.columns.map Prod.fst = info.funcs := by
    apply List.map_fst_zip
    rw [List.length_drop]
    omega
  have hinit : ∀ col ∈ info.columns,
      ((info.members key rows).map (·.field col.2)).foldlM Accumulator.absorb (.ofFunc col.1) =
        .ok (Accumulator.ofFunc col.1) := by
    intro col _
    rw [members_of_absent h]
    rfl
  rw [accumulators, mapM_of_forall hinit, ← hfuncs, List.map_map]
  rfl

/-- A row of another group makes no difference. -/
theorem accumulators_concat_other {row : Value}
    (h : ∀ k, info.tuple? row = some k → sameGroup key k = false) :
    info.accumulators key (rows ++ [row]) = info.accumulators key rows := by
  have hmembers : info.members key [row] = [] := by
    refine members_of_absent fun k hk => ?_
    obtain ⟨x, hx, hk⟩ := List.mem_filterMap.1 hk
    rw [List.mem_singleton.1 hx] at hk
    exact h k hk
  rw [accumulators, members_append, hmembers, List.append_nil]
  rfl

/-- The columns of a row of a group are merged into its accumulators. -/
theorem accumulators_concat_same {row : Value} (hrow : info.tuple? row = some k)
    (hs : sameGroup key k = true) :
    info.accumulators key (rows ++ [row]) = (info.columns.mapM fun col => do
      (← ((info.members key rows).map (·.field col.2)).foldlM Accumulator.absorb
        (.ofFunc col.1)).absorb (row.field col.2)) := by
  have hmembers : info.members key [row] = [row] := by
    refine List.filter_eq_self.2 fun x hx => ?_
    rw [List.mem_singleton.1 hx, hrow]
    exact hs
  rw [accumulators, members_append, hmembers]
  refine congrArg (fun f => info.columns.mapM f) (funext fun col => ?_)
  rw [List.map_append, List.foldlM_append]
  cases ((info.members key rows).map (·.field col.2)).foldlM Accumulator.absorb
      (.ofFunc col.1) with
  | error e => rfl
  | ok a =>
    change (a.absorb (row.field col.2) >>= pure) = a.absorb (row.field col.2)
    cases a.absorb (row.field col.2) <;> rfl

/-- Accumulators that can be had of some rows can be had of the first of them. -/
theorem accumulators_of_append {as : List Accumulator}
    (h : info.accumulators key (rows ++ more) = .ok as) :
    ∃ as, info.accumulators key rows = .ok as := by
  refine exists_mapM fun col hcol => ?_
  obtain ⟨a, ha⟩ := exists_of_mapM h hcol
  rw [members_append, List.map_append, List.foldlM_append] at ha
  cases hfirst : ((info.members key rows).map (·.field col.2)).foldlM Accumulator.absorb
      (.ofFunc col.1) with
  | ok b => exact ⟨b, rfl⟩
  | error e =>
    rw [hfirst] at ha
    cases ha

theorem keys_pairwise (info : GroupInfo) (rows : List Value) :
    (info.keys rows).Pairwise fun a b => sameGroup a b = false := by
  simp only [keys]
  split
  · exact List.pairwise_singleton ..
  · exact firstSeen_pairwise _

theorem keys_of_ne_nil (h : firstSeen id (rows.filterMap info.tuple?) ≠ []) :
    info.keys rows = firstSeen id (rows.filterMap info.tuple?) := by
  have hempty : (firstSeen id (rows.filterMap info.tuple?)).isEmpty = false := by simpa using h
  simp only [keys, hempty, Bool.false_and, Bool.false_eq_true, ↓reduceIte]

/-- A failure on the first rows is one on all. -/
theorem exists_groups_error (hk : key ∈ firstSeen id (rows.filterMap info.tuple?))
    (hfail : ∀ as, info.accumulators key rows ≠ .ok as) (more : List Value) :
    ∃ e, info.groups (rows ++ more) = .error e := by
  have hmem : key ∈ firstSeen id ((rows ++ more).filterMap info.tuple?) := by
    rw [List.filterMap_append]
    exact mem_firstSeen_append hk _
  cases hgroups : info.groups (rows ++ more) with
  | error e => exact ⟨e, rfl⟩
  | ok out =>
    rw [groups, keys_of_ne_nil (List.ne_nil_of_mem hmem)] at hgroups
    obtain ⟨row, hrow⟩ := exists_of_mapM hgroups hmem
    rw [results_eq] at hrow
    cases hall : info.accumulators key (rows ++ more) with
    | error e =>
      rw [hall] at hrow
      cases hrow
    | ok as =>
      obtain ⟨as, has⟩ := accumulators_of_append hall
      exact (hfail as has).elim

end

end GroupInfo

/-! ## What a group step makes of a row -/

namespace Grouping

/-- The grouping tuple that a group step makes of a record. -/
theorem keyOf_eq (nullable : Bool) (fields : Record) (names : List String) :
    keyOf nullable fields names =
      let values := names.map (Value.map fields).field
      if nullable then some (values.map Value.orNull)
      else if values.any Value.isEmpty then none
      else some values := by
  induction names with
  | nil => cases nullable <;> rfl
  | cons name rest ih =>
    have hvalue : (Value.map fields).field name = (Record.get? fields name).getD .empty := rfl
    simp only [keyOf, ih, List.map_cons, List.any_cons, hvalue]
    cases (Record.get? fields name).getD .empty <;> cases nullable <;>
      simp [Value.orNull, Value.isEmpty] <;> split <;> simp

theorem keyOf_tuple (g : Grouping) (fields : Record) :
    keyOf (g.info.distinct && g.streams) fields g.keyNames = g.info.tuple? (.map fields) :=
  keyOf_eq ..

/-- Merging the columns of a row succeeds if all of it does, and fails with the first failure. -/
theorem mergeAll_eq {cols : List (AggregateFunc × String)}
    {f : AggregateFunc × String → Except QueryError Accumulator} {as : List Accumulator}
    (h : cols.mapM f = .ok as) (row : Value) :
    (cols.mapM fun col => do (← f col).absorb (row.field col.2)) =
      match mergeAll as (cols.map fun col => row.field col.2) with
      | (none, bs, _) => .ok bs
      | (some e, _, _) => .error e := by
  induction cols generalizing as with
  | nil =>
    cases h
    rfl
  | cons col rest ih =>
    rw [List.mapM_cons] at h
    cases hfirst : f col with
    | error e =>
      rw [hfirst] at h
      cases h
    | ok a =>
      cases hrest : rest.mapM f with
      | error e =>
        rw [hfirst, hrest] at h
        cases h
      | ok as' =>
        rw [hfirst, hrest] at h
        cases h
        rw [List.mapM_cons, ih hrest, hfirst, List.map_cons, mergeAll]
        change (do
          let b ← a.absorb (row.field col.2)
          let bs ← _
          pure (b :: bs)) = _
        rw [Accumulator.absorb]
        cases a.merge (row.field col.2) with
        | error e => rfl
        | ok r =>
          obtain ⟨grown, b⟩ := r
          generalize mergeAll as' (rest.map fun col => row.field col.2) = m
          obtain ⟨_ | e, bs, n⟩ := m <;> rfl

end Grouping
end ShardQuery
