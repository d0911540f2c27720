import Mathlib.Algebra.Order.Ring.Int
import Mathlib.Order.Compare
import ShardQuery.Proofs.Value.Runs
import ShardQuery.Proofs.Value.Totals

/-!
The laws of the order: values, sort keys and rows are each ranked by a total preorder. Numbers are
ranked by what they stand for, exactly and in one line whatever their width, and nulls stand where
the sort key asks for them, whichever way it goes.
-/

namespace ShardQuery

/-- The laws of a comparison that ranks all it is given, equals being interchangeable. -/
structure TotalPreorder {α : Type} (cmp : α → α → Ordering) : Prop where
  refl : ∀ a, cmp a a = .eq
  swap : ∀ a b, cmp b a = (cmp a b).swap
  trans : ∀ a b c, cmp a b ≠ .gt → cmp b c ≠ .gt → cmp a c ≠ .gt
  congr : ∀ a b, cmp a b = .eq → ∀ c, cmp a c = cmp b c ∧ cmp c a = cmp c b

theorem TotalPreorder.of_transCmp {α : Type} (cmp : α → α → Ordering) [Std.TransCmp cmp] :
    TotalPreorder cmp where
  refl _ := Std.ReflCmp.compare_self
  swap _ _ := Std.OrientedCmp.eq_swap
  trans a b c hab hbc := by
    exact Ordering.isLE_iff_ne_gt.1 (Std.TransCmp.isLE_trans
      (Ordering.isLE_iff_ne_gt.2 hab) (Ordering.isLE_iff_ne_gt.2 hbc))
  congr _ _ hab _ := ⟨Std.TransCmp.congr_left hab, Std.TransCmp.congr_right hab⟩

/-! ## Numbers -/

/-- Two numbers in a place system: the leading figure decides, and then the rest. -/
theorem compare_divMod {u : Int} (hu : 0 < u) (x y : Int) :
    (Ord.compare (x / u) (y / u)).then (Ord.compare (x % u).toNat (y % u).toNat) =
      Ord.compare x y := by
  have hx : 0 ≤ x % u ∧ x % u < u := ⟨Int.emod_nonneg x hu.ne', Int.emod_lt_of_pos x hu⟩
  have hy : 0 ≤ y % u ∧ y % u < u := ⟨Int.emod_nonneg y hu.ne', Int.emod_lt_of_pos y hu⟩
  have ex : u * (x / u) + x % u = x := Int.mul_ediv_add_emod x u
  have ey : u * (y / u) + y % u = y := Int.mul_ediv_add_emod y u
  rcases lt_trichotomy (x / u) (y / u) with h | h | h
  · have hle : u * (x / u + 1) ≤ u * (y / u) := Int.mul_le_mul_of_nonneg_left h hu.le
    rw [Int.mul_add, Int.mul_one] at hle
    have hxy : x < y := by omega
    rw [compare_lt_iff_lt.2 h, compare_lt_iff_lt.2 hxy]
    rfl
  · rw [compare_eq_iff_eq.2 h, Ordering.eq_then]
    rw [h] at ex
    rcases lt_trichotomy (x % u) (y % u) with h | h | h
    · rw [compare_lt_iff_lt.2 (by omega), compare_lt_iff_lt.2 (by omega)]
    · rw [compare_eq_iff_eq.2 (by omega), compare_eq_iff_eq.2 (by omega)]
    · rw [compare_gt_iff_gt.2 (by omega), compare_gt_iff_gt.2 (by omega)]
  · have hle : u * (y / u + 1) ≤ u * (x / u) := Int.mul_le_mul_of_nonneg_left h hu.le
    rw [Int.mul_add, Int.mul_one] at hle
    have hxy : x > y := by omega
    rw [compare_gt_iff_gt.2 h, compare_gt_iff_gt.2 hxy]
    rfl

namespace Value

/-- What a number stands for, counted in smallest positive doubles: every whole number and every
finite double is a whole count of them. A NaN, of either sign and any payload, is past infinity. -/
def units? : Value → Option Int
  | .integer n => some (n.toInt * Double.unit)
  | .long n => some (n.toInt * Double.unit)
  | .double d => some d.rank
  | _ => none

theorem unit_pos : (0 : Int) < Double.unit := by
  rw [Double.unit, Int.natCast_pow]
  exact Int.pow_pos (by decide)

variable {v w : Value}

theorem key_of_units? {x : Int} (h : v.units? = some x) :
    v.key = .number (x / Double.unit) (x % Double.unit).toNat := by
  cases v with
  | integer n | long n =>
    obtain rfl := Option.some.inj h
    rw [Int.mul_ediv_cancel _ unit_pos.ne', Int.mul_emod_left]
    rfl
  | double d =>
    obtain rfl := Option.some.inj h
    rfl
  | _ => cases h

/-- Numbers are compared by what they stand for, without rounding. -/
theorem compare_of_units? {x y : Int} (nullsFirst : Bool) (hv : v.units? = some x)
    (hw : w.units? = some y) : v.compare nullsFirst w = Ord.compare x y := by
  rw [compare, key_of_units? hv, key_of_units? hw]
  exact compare_divMod unit_pos x y

/-! ## Nulls -/

theorem compare_of_isNullLike (nullsFirst : Bool) (hv : v.isNullLike = true)
    (hw : w.isNullLike = false) :
    v.compare nullsFirst w = if nullsFirst then .lt else .gt := by
  cases v <;> cases w <;> first
    | (cases hv; done)
    | (cases hw; done)
    | (cases nullsFirst <;> rfl)

end Value

theorem SortSpec.compare_of_isNullLike (spec : SortSpec) {v w : Value} (hv : v.isNullLike = true)
    (hw : w.isNullLike = false) :
    spec.compare v w = if spec.nullsFirst then .lt else .gt := by
  unfold compare
  rw [Value.compare_of_isNullLike _ hv hw, Value.compare_of_isNullLike _ hv hw]
  -- the placement is inverted once beforehand and once by the reversal
  cases spec.descending <;> cases spec.nullsFirst <;> rfl

/-! ## The laws -/

/-- Values under either placement of nulls, values under a sort key, and rows under any list of sort
keys, records or not, are ranked by a total preorder. Among values, numbers are ranked by what they
stand for. Under a sort key a null stands before everything else just if that was asked for,
whatever the direction, and a descending key is the ascending one that asks for the other placement,
read from right to left. -/
theorem order_laws :
    (∀ nullsFirst, TotalPreorder (Value.compare nullsFirst)) ∧
      (∀ spec : SortSpec, TotalPreorder spec.compare) ∧
      (∀ specs : List SortSpec, TotalPreorder (compareRows specs)) ∧
      (∀ (nullsFirst : Bool) (v w : Value) (x y : Int), v.units? = some x → w.units? = some y →
        v.compare nullsFirst w = Ord.compare x y) ∧
      (∀ (spec : SortSpec) (v w : Value), v.isNullLike = true → w.isNullLike = false →
        spec.compare v w = (if spec.nullsFirst then .lt else .gt) ∧
        spec.compare w v = (if spec.nullsFirst then .gt else .lt)) ∧
      ∀ (field : String) (nullsFirst : Bool) (v w : Value),
        SortSpec.compare ⟨field, true, nullsFirst⟩ v w =
          SortSpec.compare ⟨field, false, !nullsFirst⟩ w v := by
  refine ⟨fun _ => .of_transCmp _, fun _ => .of_transCmp _, fun _ => .of_transCmp _,
    fun nullsFirst _ _ _ _ => Value.compare_of_units? nullsFirst, fun spec v w hv hw => ?_,
    fun _ nullsFirst v w => ?_⟩
  · have h := spec.compare_of_isNullLike hv hw
    refine ⟨h, ?_⟩
    rw [(TotalPreorder.of_transCmp spec.compare).swap v w, h]
    cases spec.nullsFirst <;> rfl
  · exact ((TotalPreorder.of_transCmp (Value.compare (!nullsFirst))).swap v w).symm

/-- A long before a NaN, the NaN before a null, hence the long before the null; and a descending key
that asks for nulls last. -/
theorem order_laws_mixed :
    Value.compare false (.long 1) (.double .nan) = .lt ∧
      Value.compare false (.long 1) .null ≠ .gt ∧
      SortSpec.compare ⟨"k", true, false⟩ .null (.long 1) = .gt := by
  obtain ⟨hvalues, -, -, hnumbers, hnulls, -⟩ := order_laws
  have hnan : Value.compare false (.long 1) (.double .nan) = .lt :=
    (hnumbers false (.long 1) (.double .nan) _ _ rfl rfl).trans (by decide +kernel)
  exact ⟨hnan, (hvalues false).trans _ (.double .nan) _ (hnan ▸ nofun) (by decide +kernel),
    (hnulls ⟨"k", true, false⟩ .null (.long 1) rfl rfl).1⟩

end ShardQuery
