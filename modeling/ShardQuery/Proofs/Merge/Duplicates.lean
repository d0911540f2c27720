import ShardQuery.Merge.Duplicates
import ShardQuery.Proofs.Value.Encoding
import ShardQuery.Proofs.Value.Tuple

/-!
Which rows a set of duplicates knows: those whose primary key compares equal to that of a row it
was shown before.
-/

namespace ShardQuery.DuplicateSet

/-- Whether two rows have one primary key. A missing field counts as no value. -/
def sameKey (fields : List String) (a b : Value) : Bool :=
  fields.all fun f => (a.field f).equiv (b.field f)

/-- Whether something is so of all values in a row's primary key. -/
def keyAll (p : Value → Bool) (fields : List String) (row : Value) : Bool :=
  fields.all fun f => (row.field f).everywhere p

/-- The answers for rows that are checked one after the other. -/
def checkAll (d : DuplicateSet) (ledger : Ledger) :
    List Value → Except QueryError (List Bool × DuplicateSet × Ledger)
  | [] => .ok ([], d, ledger)
  | row :: rest => do
    let (known, d, ledger) ← d.check row ledger
    let (answers, d, ledger) ← d.checkAll ledger rest
    return (known :: answers, d, ledger)

variable {fields : List String} {a b row : Value} {d : DuplicateSet} {ledger : Ledger}

/-! ## Primary keys and their encodings -/

/-- What the encoding sees of a row's primary key. -/
def encodedKey (fields : List String) (row : Value) : List Key :=
  (keyOf fields row).map fun v => v.key.encoded

theorem sameKey_iff :
    sameKey fields a b = true ↔
      (keyOf fields a).map Value.key = (keyOf fields b).map Value.key := by
  simp [sameKey, keyOf, Value.equiv_iff]

theorem forall_keyOf {p : Value → Bool} (h : keyAll p fields row = true) :
    ∀ v ∈ keyOf fields row, v.everywhere p = true := by
  rw [keyOf, List.forall_mem_map]
  exact List.all_eq_true.1 h

theorem encodedKey_eq (hc : keyAll Value.isCounted fields row = true) :
    encodedKey fields row = (keyOf fields row).map Value.key :=
  List.map_congr_left fun v hv => v.encoded_key (forall_keyOf hc v hv)

theorem keyBytes_keyOf (ha : keyAll Value.isShort fields a = true)
    (hb : keyAll Value.isShort fields b = true) :
    keyBytes (keyOf fields a) = keyBytes (keyOf fields b) ↔
      encodedKey fields a = encodedKey fields b := by
  have hl : (keyOf fields a).length = (keyOf fields b).length := by
    rw [keyOf, keyOf, List.length_map, List.length_map]
  exact keyBytes_eq_iff hl (forall_keyOf ha) (forall_keyOf hb)

/-! ## One row -/

/-- The set that has a row more. -/
def add (d : DuplicateSet) (row : Value) : DuplicateSet :=
  { d with seen := keyBytes (keyOf d.fields row) :: d.seen
           memory := d.memory + keySize d.fields row }

/-- All that a check of a record does. -/
theorem check_record (hr : row.record?.isSome) :
    d.check row ledger = if keyBytes (keyOf d.fields row) ∈ d.seen then .ok (true, d, ledger)
      else (ledger.charge (keySize d.fields row)).map fun l => (false, d.add row, l) := by
  obtain ⟨fields, hf⟩ := Option.isSome_iff_exists.1 hr
  unfold check inspect
  rw [hf]
  by_cases hs : keyBytes (keyOf d.fields row) ∈ d.seen
  · simp only [List.contains_eq_mem, hs, decide_true, ↓reduceIte]
  · simp only [List.contains_eq_mem, hs, decide_false, Bool.false_eq_true, ↓reduceIte]
    cases ledger.charge (keySize d.fields row) <;> rfl

/-- A row whose key is encoded as that of a row before it. -/
def Repeats (fields : List String) (before : List Value) (row : Value) : Prop :=
  ∃ e ∈ before, keyBytes (keyOf fields e) = keyBytes (keyOf fields row)

/-- A set of some fields that was shown just some rows. -/
structure Shown (fields : List String) (before : List Value) (d : DuplicateSet) : Prop where
  same : d.fields = fields
  exact : ∀ row, keyBytes (keyOf fields row) ∈ d.seen ↔ Repeats fields before row

variable {before : List Value}

theorem shown_nil (fields : List String) : Shown fields [] { fields } where
  same := rfl
  exact _ := by simp [Repeats]

theorem repeats_snoc {e : Value} :
    Repeats fields (before ++ [e]) row ↔
      Repeats fields before row ∨ keyBytes (keyOf fields e) = keyBytes (keyOf fields row) := by
  simp only [Repeats, List.mem_append, List.mem_singleton, or_and_right, exists_or,
    exists_eq_left]

theorem Shown.known (h : Shown fields before d) (hs : Repeats fields before row) :
    Shown fields (before ++ [row]) d := by
  refine ⟨h.same, fun next => ?_⟩
  rw [h.exact, repeats_snoc, or_iff_left_of_imp]
  intro heq
  obtain ⟨e, he, her⟩ := hs
  exact ⟨e, he, her.trans heq⟩

theorem Shown.add (h : Shown fields before d) (row : Value) :
    Shown fields (before ++ [row]) (d.add row) := by
  refine ⟨h.same, fun next => ?_⟩
  rw [DuplicateSet.add, h.same, List.mem_cons, h.exact, repeats_snoc, or_comm, eq_comm]

/-- A check says whether a row repeats one before it, or the ledger refuses. -/
theorem Shown.check (h : Shown fields before d) (hr : row.record?.isSome) :
    (∃ used, d.check row ledger = .error (.memoryExceeded used ledger.limit)) ∨
      ∃ known d' ledger', d.check row ledger = .ok (known, d', ledger') ∧
        ledger'.limit = ledger.limit ∧ Shown fields (before ++ [row]) d' ∧
        (known = true ↔ Repeats fields before row) := by
  rw [check_record hr, h.same, ← h.exact row]
  split
  · rename_i hs
    exact .inr ⟨true, d, ledger, rfl, rfl, h.known ((h.exact row).1 hs), iff_of_true rfl hs⟩
  · rename_i hs
    unfold Ledger.charge
    split
    · exact .inr ⟨false, _, _, rfl, rfl, h.add row, iff_of_false Bool.false_ne_true hs⟩
    · exact .inl ⟨_, rfl⟩

/-! ## All rows -/

variable {rows : List Value}

theorem Shown.checkAll (h : Shown fields before d) (hr : ∀ row ∈ rows, row.record?.isSome) :
    (∃ used, d.checkAll ledger rows = .error (.memoryExceeded used ledger.limit)) ∨
      ∃ answers d' ledger', d.checkAll ledger rows = .ok (answers, d', ledger') ∧
        answers.length = rows.length ∧ ∀ i row, rows[i]? = some row →
          (answers[i]? = some true ↔ Repeats fields (before ++ rows.take i) row) := by
  induction rows generalizing before d ledger with
  | nil => exact .inr ⟨[], d, ledger, rfl, rfl, by simp⟩
  | cons row rest ih =>
    obtain ⟨hrow, hrest⟩ := List.forall_mem_cons.1 hr
    unfold DuplicateSet.checkAll
    rcases h.check hrow with ⟨used, hc⟩ | ⟨known, d', ledger', hc, hl, h', hk⟩ <;> rw [hc]
    · exact .inl ⟨used, rfl⟩
    · rcases ih h' hrest with ⟨used, he⟩ | ⟨answers, d'', ledger'', ho, hlen, hall⟩
      · refine .inl ⟨used, ?_⟩
        rw [← hl, ← he]
        simp only [bind, Except.bind]
        rw [he]
      · refine .inr ⟨known :: answers, d'', ledger'', ?_, congrArg Nat.succ hlen, ?_⟩
        · simp only [bind, Except.bind]
          rw [ho]
          rfl
        · intro i r hi
          cases i with
          | zero =>
            cases hi
            simpa using hk
          | succ i => simpa using hall i r hi

/-- A ledger with room for all keys refuses none. -/
theorem checkAll_of_room (hr : ∀ row ∈ rows, row.record?.isSome)
    (hroom : ledger.used + (rows.map (keySize d.fields)).sum ≤ ledger.limit) :
    ∃ result, d.checkAll ledger rows = .ok result := by
  induction rows generalizing d ledger with
  | nil => exact ⟨_, rfl⟩
  | cons row rest ih =>
    obtain ⟨hrow, hrest⟩ := List.forall_mem_cons.1 hr
    rw [List.map_cons, List.sum_cons] at hroom
    unfold DuplicateSet.checkAll
    rw [check_record hrow]
    split
    · have hroom : ledger.used + (rest.map (keySize d.fields)).sum ≤ ledger.limit := by omega
      obtain ⟨result, ho⟩ := ih hrest hroom
      simp only [bind, Except.bind]
      rw [ho]
      exact ⟨_, rfl⟩
    · rw [Ledger.charge_eq_ok_iff.2 ⟨by omega, rfl⟩]
      rw [← Nat.add_assoc] at hroom
      obtain ⟨result, ho⟩ := @ih (d.add row) ⟨ledger.used + keySize d.fields row, _⟩ hrest hroom
      simp only [bind, Except.bind, Except.map]
      rw [ho]
      exact ⟨_, rfl⟩

theorem repeats_iff {i : Nat} (hshort : ∀ row ∈ rows, keyAll Value.isShort fields row = true)
    (hi : rows[i]? = some row) :
    Repeats fields (rows.take i) row ↔
      ∃ e ∈ rows.take i, encodedKey fields e = encodedKey fields row := by
  refine exists_congr fun e => and_congr_right fun he => ?_
  exact keyBytes_keyOf (hshort e (List.mem_of_mem_take he)) (hshort row (List.mem_of_getElem? hi))

theorem repeats_iff_sameKey {i : Nat}
    (hcounted : ∀ row ∈ rows, keyAll Value.isCounted fields row = true) (hi : rows[i]? = some row) :
    (∃ e ∈ rows.take i, encodedKey fields e = encodedKey fields row) ↔
      ∃ e ∈ rows.take i, sameKey fields e row = true := by
  refine exists_congr fun e => and_congr_right fun he => ?_
  rw [sameKey_iff, encodedKey_eq (hcounted e (List.mem_of_mem_take he)),
    encodedKey_eq (hcounted row (List.mem_of_getElem? hi))]

/-- Where the ledger refuses nothing, all rows are answered, and a row is a duplicate just if the
encoding sees the primary key of a row before it. If 64 bits of nanoseconds tell all instants in
the keys apart, these are the rows whose primary key compares equal to one before. -/
theorem checkAll_exact (hr : ∀ row ∈ rows, row.record?.isSome)
    (hshort : ∀ row ∈ rows, keyAll Value.isShort fields row = true)
    (hledger : ∀ used,
      checkAll { fields } ledger rows ≠ .error (.memoryExceeded used ledger.limit)) :
    ∃ answers d ledger', checkAll { fields } ledger rows = .ok (answers, d, ledger') ∧
      answers.length = rows.length ∧
      (∀ i row, rows[i]? = some row → (answers[i]? = some true ↔
        ∃ e ∈ rows.take i, encodedKey fields e = encodedKey fields row)) ∧
      ((∀ row ∈ rows, keyAll Value.isCounted fields row = true) →
        ∀ i row, rows[i]? = some row →
          (answers[i]? = some true ↔ ∃ e ∈ rows.take i, sameKey fields e row = true)) := by
  rcases (shown_nil fields).checkAll hr with ⟨used, he⟩ | ⟨answers, d, ledger', ho, hl, hall⟩
  · exact (hledger used he).elim
  · refine ⟨answers, d, ledger', ho, hl, fun i row hi => ?_, fun hcounted i row hi => ?_⟩
    · exact (hall i row hi).trans (repeats_iff hshort hi)
    · exact (hall i row hi).trans
        ((repeats_iff hshort hi).trans (repeats_iff_sameKey hcounted hi))

/-- A record with just one field. -/
def single (name : String) (v : Value) : Value := .map [(name, v)]

/-- The number 1 in two widths, the number 2, and a row without the field. -/
theorem checkAll_exact_ones :
    let rows := [single "id" (.integer 1), single "id" (.long 2), single "id" (.long 1), .map []]
    (∀ used, checkAll { fields := ["id"] } (.ofLimit 1000) rows ≠
      .error (.memoryExceeded used 1000)) ∧
    ∃ answers d ledger, checkAll { fields := ["id"] } (.ofLimit 1000) rows =
      .ok (answers, d, ledger) ∧ answers.length = 4 ∧ ∀ i row, rows[i]? = some row →
        (answers[i]? = some true ↔ ∃ e ∈ rows.take i, sameKey ["id"] e row = true) := by
  intro rows
  have hr : ∀ row ∈ rows, row.record?.isSome := by decide
  have hledger : ∀ used, checkAll { fields := ["id"] } (.ofLimit 1000) rows ≠
      .error (.memoryExceeded used 1000) := by
    intro used h
    have hroom : 0 + (rows.map (keySize ["id"])).sum ≤ 1000 := by decide
    obtain ⟨result, ho⟩ := @checkAll_of_room { fields := ["id"] } (.ofLimit 1000) rows hr hroom
    rw [ho] at h
    cases h
  obtain ⟨answers, d, ledger, ho, hl, -, hall⟩ := checkAll_exact hr (by decide) hledger
  exact ⟨hledger, answers, d, ledger, ho, hl, hall (by decide)⟩

/-- Instants that 64 bits of nanoseconds do not reach are all encoded as the epoch: the second of
two such rows is a duplicate, though centuries lie between the two. -/
theorem checkAll_far_instants :
    let rows := [single "id" (.timestamp ⟨16725225600, 0⟩),
      single "id" (.timestamp ⟨32503680000, 0⟩)]
    (checkAll { fields := ["id"] } (.ofLimit 1000) rows).map (·.1) = .ok [false, true] ∧
      ¬∃ e ∈ rows.take 1, sameKey ["id"] e (single "id" (.timestamp ⟨32503680000, 0⟩)) = true := by
  decide

end ShardQuery.DuplicateSet
