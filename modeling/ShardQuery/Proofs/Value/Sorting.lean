import ShardQuery.Proofs.Value.Order

/-!
Stable sorting of rows, one row at a time: a row that comes before all others, and strictly before
those that stand in front of it, is the first of the sorted rows.
-/

namespace ShardQuery
variable (specs : List SortSpec)

/-- The order of rows as a relation. -/
abbrev rowLE (a b : Value) : Bool := (compareRows specs a b).isLE

def SortedRows (rows : List Value) : Prop := rows.Pairwise fun a b => rowLE specs a b

theorem rowLE_total (a b : Value) : (rowLE specs a b || rowLE specs b a) = true := by
  rw [rowLE, rowLE, compareRows_swap specs b a]
  cases compareRows specs a b <;> rfl

theorem rowLE_trans (a b c : Value) (hab : rowLE specs a b) (hbc : rowLE specs b c) :
    rowLE specs a c :=
  compareRows_isLE_trans specs hab hbc

/-- The same rows in the order of the specs, and rows that were in order are still so, one behind
the other. -/
structure StablySorted (rows sorted : List Value) : Prop where
  perm : sorted.Perm rows
  ordered : SortedRows specs sorted
  stable : ∀ part : List Value, part.Sublist rows → SortedRows specs part → part.Sublist sorted

theorem sortRows_stable (rows : List Value) : StablySorted specs rows (sortRows specs rows) where
  perm := List.mergeSort_perm rows (rowLE specs)
  ordered := List.pairwise_mergeSort (rowLE_trans specs) (rowLE_total specs) rows
  stable _ hpart hsorted :=
    List.sublist_mergeSort (rowLE_trans specs) (rowLE_total specs) hsorted hpart

theorem sortRows_cons (x : Value) (rows : List Value) :
    sortRows specs (x :: rows) = (sortRows specs rows).orderedInsert (rowLE specs · ·) x := by
  obtain ⟨before, after, h1, h2, h3⟩ :=
    List.mergeSort_cons (rowLE_trans specs) (rowLE_total specs) x rows
  have hs : SortedRows specs ((x :: rows).mergeSort (rowLE specs)) :=
    List.pairwise_mergeSort (rowLE_trans specs) (rowLE_total specs) _
  rw [SortedRows, h1] at hs
  have hafter : ∀ y ∈ after, rowLE specs x y = true :=
    (List.pairwise_cons.1 (List.pairwise_append.1 hs).2.1).1
  rw [sortRows, sortRows, h1, h2]
  clear h1 h2 hs
  induction before with
  | nil =>
    cases after with
    | nil => rfl
    | cons y after => exact (List.orderedInsert_cons_of_le _ after (hafter y (by simp))).symm
  | cons y before ih =>
    have hy : ¬ rowLE specs x y = true := by simpa using h3 y (by simp)
    rw [List.cons_append, List.cons_append, List.orderedInsert_cons, if_neg hy,
      ih fun z hz => h3 z (by simp [hz])]

/-- The least row comes out first, and of those level with it the one that stands first. -/
theorem sortRows_least {x : Value} {before after : List Value}
    (hb : ∀ y ∈ before, compareRows specs x y = .lt) (ha : ∀ y ∈ after, rowLE specs x y) :
    sortRows specs (before ++ x :: after) = x :: sortRows specs (before ++ after) := by
  induction before with
  | nil =>
    rw [List.nil_append, List.nil_append, sortRows_cons]
    have hm : ∀ y ∈ sortRows specs after, rowLE specs x y := by
      intro y hy
      exact ha y (List.mem_mergeSort.1 hy)
    cases hs : sortRows specs after with
    | nil => rfl
    | cons y rest => exact List.orderedInsert_cons_of_le _ _ (hm y (by simp [hs]))
  | cons y before ih =>
    have hy : ¬ rowLE specs y x = true := by
      rw [rowLE, compareRows_swap, hb y (by simp)]
      decide
    rw [List.cons_append, List.cons_append, sortRows_cons, sortRows_cons,
      ih fun z hz => hb z (by simp [hz]), List.orderedInsert_cons, if_neg hy]

end ShardQuery
