import ShardQuery.Proofs.Value.Encoding
import ShardQuery.Proofs.Value.Tuple

/-!
Grouping tuples are looked up by their encoding, so tuples of one group must have one encoding.
They do, and where all lengths fit in four bytes and all instants in 64 bits of nanoseconds, tuples
with one encoding are of one group too.
-/

namespace ShardQuery

/-! ## Fields in another order -/

section
variable {α : Type} {fs gs : List (String × α)}

/-- Fields of one name are the same in both and in the same order. Fields of different names may
come in any order. -/
def SameFields (fs gs : List (String × α)) : Prop :=
  ∀ name, fs.filter (·.1 = name) = gs.filter (·.1 = name)

theorem nameLE_trans (a b c : String × α) (hab : decide (a.1 ≤ b.1) = true)
    (hbc : decide (b.1 ≤ c.1) = true) : decide (a.1 ≤ c.1) = true := by
  rw [decide_eq_true_eq] at *
  exact String.le_trans hab hbc

theorem nameLE_total (a b : String × α) : (decide (a.1 ≤ b.1) || decide (b.1 ≤ a.1)) = true := by
  rw [Bool.or_eq_true, decide_eq_true_eq, decide_eq_true_eq]
  exact String.le_total a.1 b.1

theorem sortByName_pairwise (fs : List (String × α)) :
    (sortByName fs).Pairwise fun a b => a.1 ≤ b.1 := by
  have h := List.pairwise_mergeSort nameLE_trans nameLE_total fs
  refine h.imp ?_
  intro a b hab
  exact of_decide_eq_true hab

/-- Sorting keeps the fields of a name as they are. -/
theorem filter_sortByName (fs : List (String × α)) (name : String) :
    (sortByName fs).filter (·.1 = name) = fs.filter (·.1 = name) := by
  have hone : (fs.filter (·.1 = name)).Pairwise fun a b => decide (a.1 ≤ b.1) = true := by
    apply List.pairwise_of_forall_mem_list
    intro a ha b hb
    have ha : a.1 = name := by simpa using (List.mem_filter.1 ha).2
    have hb : b.1 = name := by simpa using (List.mem_filter.1 hb).2
    simp [ha, hb]
  have hsub : (fs.filter (·.1 = name)).Sublist (sortByName fs) :=
    List.sublist_mergeSort nameLE_trans nameLE_total hone List.filter_sublist
  have hlength : (fs.filter (·.1 = name)).length =
      ((sortByName fs).filter (·.1 = name)).length :=
    ((List.mergeSort_perm fs _).filter _).length_eq.symm
  have hfilter := hsub.filter (·.1 = name)
  rw [List.filter_filter] at hfilter
  simp only [Bool.and_self] at hfilter
  exact (hfilter.eq_of_length hlength).symm

theorem SameFields.tail {a : String × α} (h : SameFields (a :: fs) (a :: gs)) :
    SameFields fs gs := by
  intro name
  have hname := h name
  by_cases ha : a.1 = name
  · simpa [ha] using hname
  · simpa [ha] using hname

/-- A field of the one is among the fields of the other. -/
theorem SameFields.mem {a : String × α} (h : SameFields fs gs) (ha : a ∈ fs) : a ∈ gs := by
  have hmem : a ∈ gs.filter (·.1 = a.1) := by
    rw [← h a.1]
    simpa using ha
  exact (List.mem_filter.1 hmem).1

theorem SameFields.symm (h : SameFields fs gs) : SameFields gs fs := fun name => (h name).symm

/-- The first of the sorted fields comes before all fields that are the same. -/
theorem SameFields.head_le {a b : String × α} (h : SameFields (a :: fs) (b :: gs))
    (hfs : (a :: fs).Pairwise fun a b => a.1 ≤ b.1) : a.1 ≤ b.1 := by
  rcases List.mem_cons.1 (h.symm.mem (List.mem_cons_self ..)) with rfl | hmem
  · exact String.le_refl _
  · exact (List.pairwise_cons.1 hfs).1 b hmem

/-- There is one way to sort fields that keeps those of one name in their order. -/
theorem SameFields.eq_of_sorted (h : SameFields fs gs) (hfs : fs.Pairwise fun a b => a.1 ≤ b.1)
    (hgs : gs.Pairwise fun a b => a.1 ≤ b.1) : fs = gs := by
  induction fs generalizing gs with
  | nil =>
    cases gs with
    | nil => rfl
    | cons b gs => exact absurd (h.symm.mem (List.mem_cons_self ..)) List.not_mem_nil
  | cons a fs ih =>
    cases gs with
    | nil => exact absurd (h.mem (List.mem_cons_self ..)) List.not_mem_nil
    | cons b gs =>
      have hname : a.1 = b.1 := String.le_antisymm (h.head_le hfs) (h.symm.head_le hgs)
      have hhead : a = b := by
        have ha := h a.1
        simp only [List.filter_cons, hname, decide_true, ↓reduceIte, List.cons.injEq] at ha
        exact ha.1
      subst hhead
      rw [ih h.tail (List.pairwise_cons.1 hfs).2 (List.pairwise_cons.1 hgs).2]

theorem SameFields.sortByName_eq (h : SameFields fs gs) : sortByName fs = sortByName gs := by
  apply SameFields.eq_of_sorted _ (sortByName_pairwise fs) (sortByName_pairwise gs)
  intro name
  rw [filter_sortByName, filter_sortByName]
  exact h name

end

namespace Value

/-! ## What the order does not see -/

/-- The order sees no difference between records whose fields are in another order. -/
theorem key_map_congr {fs gs : List (String × Value)} (h : SameFields fs gs) :
    (Value.map fs).key = (Value.map gs).key := by
  rw [key, key, keyFields_eq, keyFields_eq, sortByName_map, sortByName_map, h.sortByName_eq]

/-- An integer is to the order what it is as a long. -/
theorem key_integer (n : Int32) : (Value.integer n).key = (Value.long n.toInt64).key := by
  rw [key, key, Int32.toInt_toInt64]

/-- A double that equals a long is to the order what the long is. -/
theorem key_double {d : Double} {n : Int64} (h : d.toLong? = some n) :
    (Value.double d).key = (Value.long n).key := by
  unfold Double.toLong? at h
  split at h
  · rename_i hd
    obtain ⟨hrest, hlow, hhigh⟩ := hd
    cases h
    rw [key, key, hrest, Int64.toInt_ofInt_of_le hlow hhigh]
  · cases h

/-- One key has one encoding. -/
theorem keyBytes_congr {v w : Value} (h : v.key = w.key) : v.keyBytes = w.keyBytes := by
  rw [v.keyBytes_eq, w.keyBytes_eq, h]

end Value

/-! ## Tuples -/

section
variable {vs ws : List Value}

theorem keyBytes_of_sameGroup (h : sameGroup vs ws = true) : keyBytes vs = keyBytes ws := by
  have hkeys := congrArg (List.map Key.encoded) (sameGroup_iff.1 h)
  rw [List.map_map, List.map_map] at hkeys
  rw [keyBytes_eq_bytesItems, keyBytes_eq_bytesItems]
  exact congrArg Key.bytesItems hkeys

theorem sameGroup_iff_forall₂ (nullsFirst : Bool) :
    sameGroup vs ws = true ↔ List.Forall₂ (fun v w => v.compare nullsFirst w = .eq) vs ws := by
  rw [sameGroup_iff, ← List.forall₂_eq_eq_eq, List.forall₂_map_left_iff,
    List.forall₂_map_right_iff]
  simp only [Value.compare_eq_iff]

theorem map_encoded_key (hcounted : ∀ v ∈ vs, v.everywhere Value.isCounted = true) :
    (vs.map fun v => v.key.encoded) = vs.map Value.key :=
  List.map_congr_left fun v hv => v.encoded_key (hcounted v hv)

/-- The encodings of values, one after the other, are the same just if the values compare equal one
by one, and nothing that follows can be taken for a part of them. For values of any size the
encoding sees no more than the order: tuples of one group have one encoding, whatever the order of
the fields in records and the width of numbers. -/
theorem keyBytes_exact (hlength : vs.length = ws.length)
    (hshort : ∀ v ∈ vs ++ ws, v.everywhere Value.isShort = true)
    (hcounted : ∀ v ∈ vs ++ ws, v.everywhere Value.isCounted = true) :
    (∀ nullsFirst, keyBytes vs = keyBytes ws ↔
      List.Forall₂ (fun v w => v.compare nullsFirst w = .eq) vs ws) ∧
    (∀ r s, keyBytes vs ++ r = keyBytes ws ++ s → keyBytes vs = keyBytes ws ∧ r = s) ∧
    (∀ xs ys, sameGroup xs ys = true → keyBytes xs = keyBytes ys) ∧
    (∀ fs gs, SameFields fs gs → (Value.map fs).keyBytes = (Value.map gs).keyBytes) ∧
    (∀ n : Int32, (Value.integer n).keyBytes = (Value.long n.toInt64).keyBytes) ∧
    ∀ (d : Double) (n : Int64), d.toLong? = some n →
      (Value.double d).keyBytes = (Value.long n).keyBytes := by
  rw [List.forall_mem_append] at hshort hcounted
  have hgroup : keyBytes vs = keyBytes ws ↔ sameGroup vs ws = true := by
    rw [keyBytes_eq_iff hlength hshort.1 hshort.2, map_encoded_key hcounted.1,
      map_encoded_key hcounted.2, sameGroup_iff]
  refine ⟨?_, ?_, ?_, ?_, ?_, ?_⟩
  · intro nullsFirst
    rw [hgroup, sameGroup_iff_forall₂]
  · intro r s h
    obtain ⟨hkeys, hrest⟩ := keyBytes_append_inj hlength hshort.1 hshort.2 h
    exact ⟨(keyBytes_eq_iff hlength hshort.1 hshort.2).2 hkeys, hrest⟩
  · intro xs ys h
    exact keyBytes_of_sameGroup h
  · intro fs gs h
    exact Value.keyBytes_congr (Value.key_map_congr h)
  · intro n
    exact Value.keyBytes_congr (Value.key_integer n)
  · intro d n h
    exact Value.keyBytes_congr (Value.key_double h)

/-- One number in two widths, two NaNs, a record whose fields come in another order, and a long that
the nearest double does not equal. -/
theorem keyBytes_exact_widths :
    let one : List Value := [.integer 1, .double ⟨0x7ff8000000000001⟩,
      .map [("b", .null), ("a", .text "x")]]
    let other : List Value := [.double ⟨0x3ff0000000000000⟩, .double .nan,
      .map [("a", .text "x"), ("b", .null)]]
    let big : List Value := [.long 9007199254740993]
    let near : List Value := [.double ⟨0x4340000000000000⟩]
    (∀ v ∈ one ++ other, v.everywhere Value.isShort = true ∧ v.everywhere Value.isCounted = true) ∧
      (∀ v ∈ big ++ near, v.everywhere Value.isShort = true ∧ v.everywhere Value.isCounted = true) ∧
      keyBytes one = keyBytes other ∧ keyBytes big ≠ keyBytes near := by
  intro one other big near
  have hsmall : ∀ v ∈ one ++ other,
      v.everywhere Value.isShort = true ∧ v.everywhere Value.isCounted = true := by
    decide +kernel
  have hlarge : ∀ v ∈ big ++ near,
      v.everywhere Value.isShort = true ∧ v.everywhere Value.isCounted = true := by
    decide +kernel
  have hfields :
      SameFields [("b", Value.null), ("a", .text "x")] [("a", .text "x"), ("b", .null)] := by
    intro name
    by_cases ha : "a" = name
    · simp [← ha]
    · simp [List.filter_cons, ha]
  have hequal : List.Forall₂ (fun v w => Value.compare false v w = .eq) one other := by
    refine .cons ?_ (.cons ?_ (.cons ?_ .nil))
    · decide +kernel
    · decide +kernel
    · exact Value.compare_eq_iff.2 (Value.key_map_congr hfields)
  have hless :
      Value.compare false (.double ⟨0x4340000000000000⟩) (.long 9007199254740993) = .lt := by
    decide +kernel
  refine ⟨hsmall, hlarge, ?_, ?_⟩
  · have hlength : one.length = other.length := rfl
    have hexact := keyBytes_exact hlength (fun v hv => (hsmall v hv).1) fun v hv => (hsmall v hv).2
    exact (hexact.1 false).2 hequal
  · intro h
    have hlength : near.length = big.length := rfl
    have hexact := keyBytes_exact hlength
      (fun v hv => (hlarge v (List.perm_append_comm.subset hv)).1)
      fun v hv => (hlarge v (List.perm_append_comm.subset hv)).2
    obtain ⟨hcompare, -⟩ := List.forall₂_cons.1 ((hexact.1 false).1 h.symm)
    rw [hless] at hcompare
    cases hcompare

end

end ShardQuery
