import ShardQuery.Proofs.Value.Order
import ShardQuery.Value.Tuple

/-!
Values and tuples of values are known by their keys: two are one to the order, and of one group,
just if the keys are the same.
-/

namespace ShardQuery

theorem Value.compare_eq_iff {nullsFirst : Bool} {a b : Value} :
    a.compare nullsFirst b = .eq ↔ a.key = b.key := Key.compare_eq_iff

theorem Value.equiv_iff {a b : Value} : a.equiv b = true ↔ a.key = b.key := by
  rw [equiv, Ordering.isEq_iff_eq_eq, compare_eq_iff]

variable {xs ys zs : List Value}

theorem sameGroup_iff : sameGroup xs ys = true ↔ xs.map Value.key = ys.map Value.key := by
  induction xs generalizing ys with
  | nil => cases ys <;> simp [sameGroup]
  | cons x xs ih =>
    cases ys with
    | nil => simp [sameGroup]
    | cons y ys =>
      have hcons : sameGroup (x :: xs) (y :: ys) = (x.equiv y && sameGroup xs ys) := by
        simp [sameGroup, Bool.and_left_comm]
      rw [hcons, Bool.and_eq_true, Value.equiv_iff, ih, List.map_cons, List.map_cons,
        List.cons.injEq]

theorem sameGroup_refl (xs : List Value) : sameGroup xs xs = true := sameGroup_iff.2 rfl

theorem sameGroup_symm (h : sameGroup xs ys = true) : sameGroup ys xs = true :=
  sameGroup_iff.2 (sameGroup_iff.1 h).symm

theorem sameGroup_trans (hxy : sameGroup xs ys = true) (hyz : sameGroup ys zs = true) :
    sameGroup xs zs = true :=
  sameGroup_iff.2 ((sameGroup_iff.1 hxy).trans (sameGroup_iff.1 hyz))

end ShardQuery
