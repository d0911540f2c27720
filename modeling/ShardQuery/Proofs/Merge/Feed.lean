import ShardQuery.Merge.Feed
import ShardQuery.Proofs.Value.Sorting

/-!
The order in which a merge turns to its feeds is a total preorder. If the first feed has a row, then
all have, and that row is the next one of the merge.
-/

namespace ShardQuery.Feed
variable {specs : List SortSpec} {f g : Feed}

theorem compare_swap (specs : List SortSpec) (f g : Feed) :
    f.compare specs g = (g.compare specs f).swap := by
  unfold compare
  cases f.rows <;> cases g.rows
  case nil.nil => exact Std.OrientedOrd.eq_swap
  case nil.cons | cons.nil => rfl
  case cons.cons =>
    simp only
    rw [Ordering.swap_then, ← Std.OrientedCmp.eq_swap, ← Std.OrientedCmp.eq_swap]

theorem compare_isLE_trans {h : Feed} (hfg : (f.compare specs g).isLE)
    (hgh : (g.compare specs h).isLE) : (f.compare specs h).isLE := by
  unfold compare at *
  cases hf : f.rows <;> cases hg : g.rows <;> cases hh : h.rows <;>
    simp only [hf, hg, hh] at hfg hgh ⊢
  case nil.nil.nil => exact Std.TransCmp.isLE_trans hfg hgh
  case nil.nil.cons | nil.cons.cons => rfl
  case nil.cons.nil | cons.cons.nil => cases hgh
  case cons.nil.nil | cons.nil.cons => cases hfg
  case cons.cons.cons =>
    refine isLE_then_trans Std.TransCmp.isLE_trans ?_ ?_ (fun _ _ => Std.TransCmp.isLE_trans)
      hfg hgh
    · rw [← Std.OrientedCmp.eq_swap, ← Std.OrientedCmp.eq_swap]
      exact Std.TransCmp.isLE_trans
    · rw [← Std.OrientedCmp.eq_swap, ← Std.OrientedCmp.eq_swap]
      exact Std.TransCmp.isLE_trans

instance (specs : List SortSpec) : Std.TransCmp (compare specs) where
  eq_swap := compare_swap specs _ _
  isLE_trans := compare_isLE_trans

/-- A feed without rows stands back only for others without rows and with lower ids. -/
theorem isLE_of_empty (hf : f.rows = []) (hg : g.rows = []) (h : (f.compare specs g).isLE) :
    f.id ≤ g.id := by
  simp only [compare, hf, hg] at h
  exact Int.isLE_compare.1 h

/-- A feed with a row comes first only if all have rows. -/
theorem rows_ne_nil {row : Value} {rest : List Value} (hf : f.rows = row :: rest)
    (h : (f.compare specs g).isLE) : g.rows ≠ [] := by
  intro hg
  simp only [compare, hf, hg] at h
  cases h

/-- The first row of the feed that comes first comes before every other first row, strictly so if
the other id is lower. -/
theorem head_before {row other : Value} {rest others : List Value} (hf : f.rows = row :: rest)
    (hg : g.rows = other :: others) (h : (f.compare specs g).isLE) :
    rowLE specs row other ∧ (g.id < f.id → compareRows specs row other = .lt) := by
  simp only [compare, hf, hg] at h
  refine ⟨?_, fun hi => ?_⟩
  · unfold rowLE
    revert h
    cases compareRows specs row other <;> simp
  · have hgt : Ord.compare f.id g.id = .gt := Int.compare_eq_gt.2 hi
    revert h
    rw [hgt]
    cases compareRows specs row other <;> simp

end ShardQuery.Feed
