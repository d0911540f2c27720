import ShardQuery.Proofs.Value.Sorting
import ShardQuery.Proofs.Value.Tuple

/-!
Rows that are sorted by the fields they are grouped by come in runs, one for each grouping tuple.
The order tells an absent field from a null one, which grouping does not: rows that differ in this
alone may come apart, with rows of other groups between them.
-/

namespace ShardQuery

/-! ## Runs -/

/-- The tuples of the groups that come out of a run after the other, with the tuple of the run that
has begun. -/
def groupKeys : Option (List Value) → List (List Value) → List (List Value)
  | none, [] => []
  | some k, [] => [k]
  | none, key :: rest => groupKeys (some key) rest
  | some k, key :: rest =>
    if sameGroup k key then groupKeys (some k) rest else k :: groupKeys (some key) rest

theorem mem_of_groupKeys {current : Option (List Value)} {keys : List (List Value)}
    {k : List Value} (h : k ∈ groupKeys current keys) : current = some k ∨ k ∈ keys := by
  induction keys generalizing current with
  | nil =>
    cases current with
    | none => cases h
    | some key => exact .inl (congrArg some (List.mem_singleton.1 h).symm)
  | cons key rest ih =>
    cases current with
    | none =>
      rcases ih h with h | h
      · exact .inr (by rw [Option.some.inj h]; exact List.mem_cons_self ..)
      · exact .inr (List.mem_cons_of_mem _ h)
    | some key' =>
      unfold groupKeys at h
      split at h
      · exact (ih h).imp_right (List.mem_cons_of_mem _)
      · rcases List.mem_cons.1 h with rfl | h
        · exact .inl rfl
        · rcases ih h with h | h
          · exact .inr (by rw [Option.some.inj h]; exact List.mem_cons_self ..)
          · exact .inr (List.mem_cons_of_mem _ h)

theorem exists_groupKeys {current : Option (List Value)} {keys : List (List Value)}
    {key : List Value} (h : current = some key ∨ key ∈ keys) :
    ∃ k ∈ groupKeys current keys, sameGroup k key = true := by
  induction keys generalizing current key with
  | nil =>
    obtain rfl := h.resolve_right List.not_mem_nil
    exact ⟨key, List.mem_singleton_self key, sameGroup_refl key⟩
  | cons first rest ih =>
    cases current with
    | none =>
      rcases List.mem_cons.1 (h.resolve_left nofun) with rfl | h
      · exact ih (.inl rfl)
      · exact ih (.inr h)
    | some k =>
      unfold groupKeys
      split
      · rename_i hs
        rcases h with h | h
        · exact ih (.inl h)
        · rcases List.mem_cons.1 h with rfl | h
          · obtain ⟨k', hk', hs'⟩ := ih (.inl (rfl : some k = some k))
            exact ⟨k', hk', sameGroup_trans hs' hs⟩
          · exact ih (.inr h)
      · rcases h with h | h
        · exact ⟨k, List.mem_cons_self .., by rw [Option.some.inj h]; exact sameGroup_refl key⟩
        · obtain ⟨k', hk', hs'⟩ : ∃ k ∈ groupKeys (some first) rest, sameGroup k key = true := by
            rcases List.mem_cons.1 h with rfl | h
            · exact ih (.inl rfl)
            · exact ih (.inr h)
          exact ⟨k', List.mem_cons_of_mem _ hk', hs'⟩

/-! ## Values between values -/

theorem SortSpec.compare_eq_iff {spec : SortSpec} {v w : Value} :
    spec.compare v w = .eq ↔ v.key = w.key := by
  unfold compare
  split
  · rw [Ordering.swap_eq_iff_eq_swap]
    exact Value.compare_eq_iff
  · exact Value.compare_eq_iff

theorem SortSpec.key_of_between {spec : SortSpec} {v m w : Value}
    (hvm : (spec.compare v m).isLE = true) (hmw : (spec.compare m w).isLE = true)
    (hvw : v.key = w.key) : v.key = m.key := by
  have hwv : (spec.compare w v).isLE = true := by
    rw [compare_eq_iff.2 hvw.symm]
    rfl
  exact compare_eq_iff.1 (Std.OrientedCmp.isLE_antisymm hvm (Std.TransCmp.isLE_trans hmw hwv))

theorem Key.kindPlace_le {nullsFirst : Bool} {a b : Key}
    (h : (a.compare nullsFirst b).isLE = true) :
    a.kindPlace nullsFirst ≤ b.kindPlace nullsFirst := by
  rw [compare_eq_then] at h
  exact Nat.isLE_compare.1 (Ordering.isLE_then_iff_and.1 h).1

namespace Value

variable {v m w : Value}

theorem isNullLike_iff (nullsFirst : Bool) :
    v.isNullLike = true ↔ v.key.kindPlace nullsFirst = (Key.nothing 0).kindPlace nullsFirst := by
  cases nullsFirst <;> cases v <;>
    simp [isNullLike, key, Key.kindPlace, Key.kindRank, Key.isNothing]

/-- Between two of the three kinds of nothing is nothing else. -/
theorem isNullLike_of_between {spec : SortSpec} (hv : v.isNullLike = true)
    (hw : w.isNullLike = true) (hvm : (spec.compare v m).isLE = true)
    (hmw : (spec.compare m w).isLE = true) : m.isNullLike = true := by
  unfold SortSpec.compare at hvm hmw
  split at hvm <;> rename_i hd
  · rw [if_pos hd, ← Std.OrientedCmp.eq_swap] at hmw
    rw [← Std.OrientedCmp.eq_swap] at hvm
    have h := Key.kindPlace_le hvm
    have h' := Key.kindPlace_le hmw
    rw [isNullLike_iff (!spec.nullsFirst)] at hv hw ⊢
    omega
  · rw [if_neg hd] at hmw
    have h := Key.kindPlace_le hvm
    have h' := Key.kindPlace_le hmw
    rw [isNullLike_iff spec.nullsFirst] at hv hw ⊢
    omega

theorem key_eq_empty : v.key = .nothing 0 ↔ v = .empty := by cases v <;> simp [key]

theorem key_eq_null : v.key = .nothing 2 ↔ v = .null := by cases v <;> simp [key]

theorem orNull_of_ne (h : v ≠ .empty) : v.orNull = v := by
  cases v <;> first | rfl | exact (h rfl).elim

/-- An absent value that counts as null is still told from all but null. -/
theorem key_orNull_empty (hw : w ≠ .null) : Value.empty.orNull.key = w.orNull.key ↔ w = .empty := by
  by_cases he : w = .empty
  · simp [he]
  · have hk : (Value.empty.orNull).key = .nothing 2 := rfl
    rw [orNull_of_ne he, hk, eq_comm, key_eq_null]
    exact iff_of_false hw he

theorem key_orNull (h : v ≠ .empty ∧ w ≠ .empty ∨ v ≠ .null ∧ w ≠ .null) :
    v.orNull.key = w.orNull.key ↔ v.key = w.key := by
  rcases h with ⟨hv, hw⟩ | ⟨hv, hw⟩
  · rw [orNull_of_ne hv, orNull_of_ne hw]
  · by_cases hve : v = .empty
    · have hk : Value.empty.key = .nothing 0 := rfl
      rw [hve, key_orNull_empty hw, hk, eq_comm (b := w.key), key_eq_empty]
    · by_cases hwe : w = .empty
      · have hk : Value.empty.key = .nothing 0 := rfl
        rw [hwe, eq_comm, key_orNull_empty hv, hk, key_eq_empty]
      · rw [orNull_of_ne hve, orNull_of_ne hwe]

theorem orNull_of_isNullLike (hv : v.isNullLike = true) (hj : v ≠ .jsonNull) :
    v.orNull = .null := by
  cases v <;> first | rfl | exact (hj rfl).elim | cases hv

end Value

/-! ## Rows between rows -/

/-- The grouping tuple of a row: an absent field counts as null. -/
def groupTuple (fields : List String) (row : Value) : List Value :=
  fields.map fun f => (row.field f).orNull

theorem sameGroup_groupTuple {fields : List String} {a b : Value} :
    sameGroup (groupTuple fields a) (groupTuple fields b) = true ↔
      ∀ f ∈ fields, (a.field f).orNull.key = (b.field f).orNull.key := by
  rw [sameGroup_iff, groupTuple, groupTuple, List.map_map, List.map_map, List.map_inj_left]
  rfl

/-- A field that is not absent in one row and null in another. -/
def Unmixed (rows : List Value) (f : String) : Prop :=
  (∀ row ∈ rows, row.field f ≠ .empty) ∨ ∀ row ∈ rows, row.field f ≠ .null

/-- Rows whose groups the order of the fields holds together: no field is absent in one row and null
in another. The last one may be, if in no row it is a document null, which comes between these. -/
def Unsplit (rows : List Value) : List String → Prop
  | [] => True
  | f :: rest => (Unmixed rows f ∨ rest = [] ∧ ∀ row ∈ rows, row.field f ≠ .jsonNull) ∧
      Unsplit rows rest

section
variable {rows : List Value} {f : String} {spec : SortSpec} {a m b : Value}

theorem Unmixed.key_orNull (h : Unmixed rows f) (ha : a ∈ rows) (hb : b ∈ rows) :
    (a.field f).orNull.key = (b.field f).orNull.key ↔ (a.field f).key = (b.field f).key :=
  Value.key_orNull (h.imp (fun h => ⟨h a ha, h b hb⟩) fun h => ⟨h a ha, h b hb⟩)

/-- A last field that is never a document null has no other value between two of one group. -/
theorem orNull_of_between {v m w : Value} (hv : v ≠ .jsonNull) (hm : m ≠ .jsonNull)
    (hvm : (spec.compare v m).isLE = true) (hmw : (spec.compare m w).isLE = true)
    (hvw : v.orNull.key = w.orNull.key) : v.orNull.key = m.orNull.key := by
  by_cases hn : v.isNullLike = true
  · have hvn := Value.orNull_of_isNullLike hn hv
    have hw : w.isNullLike = true := by
      rw [hvn] at hvw
      have hwn : w.orNull = .null := Value.key_eq_null.1 hvw.symm
      cases w <;> first | rfl | cases hwn
    rw [hvn, Value.orNull_of_isNullLike (Value.isNullLike_of_between hn hw hvm hmw) hm]
  · have hne : v ≠ .empty ∧ v ≠ .null := ⟨fun h => hn (h ▸ rfl), fun h => hn (h ▸ rfl)⟩
    have hw : w ≠ .null := by
      rintro rfl
      rw [Value.orNull_of_ne hne.1] at hvw
      exact hne.2 (Value.key_eq_null.1 hvw)
    have hkey := (Value.key_orNull (.inr ⟨hne.2, hw⟩)).1 hvw
    have hmid := SortSpec.key_of_between hvm hmw hkey
    have hmne : m ≠ .empty := fun h => hne.1 (Value.key_eq_empty.1 (hmid.trans (h ▸ rfl)))
    rw [Value.orNull_of_ne hne.1, Value.orNull_of_ne hmne, hmid]

end

/-- A row between two of one group is of that group. -/
theorem sameGroup_of_between {specs : List SortSpec} {fields : List String}
    (hspecs : specs.map (·.field) = fields) {rows : List Value} (hu : Unsplit rows fields)
    {a m b : Value} (ha : a ∈ rows) (hm : m ∈ rows) (hb : b ∈ rows)
    (ham : rowLE specs a m = true) (hmb : rowLE specs m b = true)
    (hab : sameGroup (groupTuple fields a) (groupTuple fields b) = true) :
    sameGroup (groupTuple fields a) (groupTuple fields m) = true := by
  rw [sameGroup_groupTuple] at hab ⊢
  subst hspecs
  induction specs with
  | nil => exact List.forall_mem_nil _
  | cons spec rest ih =>
    rw [rowLE, compareRows, Ordering.isLE_then_iff_and] at ham hmb
    obtain ⟨hfam, hram⟩ := ham
    obtain ⟨hfmb, hrmb⟩ := hmb
    obtain ⟨hfab, hrab⟩ := List.forall_mem_cons.1 hab
    obtain ⟨hf, hrest⟩ := hu
    refine List.forall_mem_cons.2 ?_
    rcases hf with hf | ⟨hlast, hf⟩
    · have hkab : (a.field spec.field).key = (b.field spec.field).key :=
        (hf.key_orNull ha hb).1 hfab
      have hkam := SortSpec.key_of_between hfam hfmb hkab
      rw [SortSpec.compare_eq_iff.2 hkam] at hram
      rw [SortSpec.compare_eq_iff.2 (hkam.symm.trans hkab)] at hrmb
      exact ⟨(hf.key_orNull ha hm).2 hkam,
        ih (hram.resolve_left (by decide)) (hrmb.resolve_left (by decide)) hrest hrab⟩
    · rw [hlast]
      exact ⟨orNull_of_between (hf a ha) (hf m hm) hfam hfmb hfab, List.forall_mem_nil _⟩

/-! ## Runs of sorted rows -/

/-- Runs of sorted rows have tuples of their own, if rows between two of one group are of that
group. -/
theorem groupKeys_pairwise {specs : List SortSpec} {tuple : Value → List Value} {all : List Value}
    (hsame : ∀ a ∈ all, ∀ m ∈ all, ∀ b ∈ all, rowLE specs a m = true → rowLE specs m b = true →
      sameGroup (tuple a) (tuple b) = true → sameGroup (tuple a) (tuple m) = true)
    {first : Value} {rows : List Value} (hall : ∀ a ∈ first :: rows, a ∈ all)
    (hsort : SortedRows specs (first :: rows)) :
    (groupKeys (some (tuple first)) (rows.map tuple)).Pairwise
      fun k l => ¬sameGroup k l = true := by
  induction rows generalizing first with
  | nil => exact List.pairwise_singleton ..
  | cons next rest ih =>
    obtain ⟨hfirst, hrest⟩ := List.pairwise_cons.1 hsort
    obtain ⟨hnext, hrest'⟩ := List.pairwise_cons.1 hrest
    obtain ⟨haf, han, har⟩ := List.forall_mem_cons.1 hall |>.imp_right List.forall_mem_cons.1
    obtain ⟨hfn, hfr⟩ := List.forall_mem_cons.1 hfirst
    rw [List.map_cons, groupKeys]
    split
    · exact ih (List.forall_mem_cons.2 ⟨haf, har⟩) (List.pairwise_cons.2 ⟨hfr, hrest'⟩)
    · rename_i hd
      refine List.pairwise_cons.2
        ⟨fun k hk hs => hd ?_, ih (List.forall_mem_cons.2 ⟨han, har⟩) hrest⟩
      -- A later row of the first one's group would hold all between them in that group.
      obtain ⟨x, hx, rfl⟩ : ∃ x ∈ next :: rest, tuple x = k := by
        rcases mem_of_groupKeys hk with hk | hk
        · exact ⟨next, List.mem_cons_self .., Option.some.inj hk⟩
        · obtain ⟨x, hx, he⟩ := List.mem_map.1 hk
          exact ⟨x, List.mem_cons_of_mem _ hx, he⟩
      have hnx : rowLE specs next x = true := by
        rcases List.mem_cons.1 hx with rfl | hx
        · have hself : compareRows specs x x = .eq := Std.ReflCmp.compare_self
          rw [rowLE, hself]
          rfl
        · exact hnext x hx
      exact hsame first haf next han x (hall x (List.mem_cons_of_mem _ hx)) hfn hnx hs

/-- Some tuples, one of each group of the rows. -/
structure OnePerGroup (fields : List String) (rows : List Value) (keys : List (List Value)) :
    Prop where
  apart : keys.Pairwise fun k l => ¬sameGroup k l = true
  occurs : ∀ k ∈ keys, ∃ row ∈ rows, groupTuple fields row = k
  all : ∀ row ∈ rows, ∃ k ∈ keys, sameGroup k (groupTuple fields row) = true

/-- Of sorted rows each group is one run. -/
theorem onePerGroup_groupKeys {specs : List SortSpec} {fields : List String}
    (hspecs : specs.map (·.field) = fields) {rows : List Value} (hsort : SortedRows specs rows)
    (hu : Unsplit rows fields) :
    OnePerGroup fields rows (groupKeys none (rows.map (groupTuple fields))) where
  apart := by
    cases rows with
    | nil => exact .nil
    | cons first rest =>
      exact groupKeys_pairwise
        (fun a ha m hm b hb ham hmb => sameGroup_of_between hspecs hu ha hm hb ham hmb)
        (fun _ => id) hsort
  occurs k hk := List.mem_map.1 ((mem_of_groupKeys hk).resolve_left nofun)
  all row hrow := exists_groupKeys (.inr (List.mem_map_of_mem hrow))

end ShardQuery
