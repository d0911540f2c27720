import ShardQuery.Proofs.Value.Tuple
import ShardQuery.Value.Arithmetic

/-!
Whole numbers among values, and their totals. The order over values sees the number only, not how
wide it is.
-/

namespace ShardQuery
namespace Value

/-! ## Whole numbers -/

/-- The whole number that a value of an integral type stands for. -/
def whole? (v : Value) : Option Int := v.toLong?.map Int64.toInt

theorem key_of_whole? {v : Value} {n : Int} (h : v.whole? = some n) : v.key = .number n 0 := by
  cases v with
  | integer m =>
    obtain rfl : m.toInt64.toInt = n := Option.some.inj h
    rw [Int32.toInt_toInt64]
    rfl
  | long m =>
    obtain rfl : m.toInt = n := Option.some.inj h
    rfl
  | _ => cases h

theorem whole?_of_isNumeric {v : Value} (hn : v.isNumeric = true) (hd : ∀ d, v ≠ .double d) :
    ∃ n, v.whole? = some n := by
  cases v with
  | integer m => exact ⟨_, rfl⟩
  | long m => exact ⟨_, rfl⟩
  | double d => exact (hd d rfl).elim
  | _ => cases hn

theorem whole?_of_not_isNumeric {v : Value} (hn : v.isNumeric = false) : v.whole? = none := by
  cases v with
  | integer | long | double => cases hn
  | _ => rfl

theorem filterMap_whole?_cons (v : Value) (vs : List Value) :
    (v :: vs).filterMap whole? = v.whole?.toList ++ vs.filterMap whole? := by
  cases hv : v.whole? with
  | none => rw [List.filterMap_cons_none hv, Option.toList_none, List.nil_append]
  | some n => rw [List.filterMap_cons_some hv, Option.toList_some, List.singleton_append]

theorem add_long (x : Int64) {w : Value} {n : Int} (hw : w.whole? = some n) :
    ArithOp.add.apply (.long x) w = ofLongs .add (x.toInt + n) := by
  cases w with
  | integer y | long y =>
    obtain rfl := Option.some.inj hw
    rfl
  | _ => cases hw

theorem fitsLong_iff {n : Int} : fitsLong n = true ↔ -2 ^ 63 ≤ n ∧ n < 2 ^ 63 := by
  rw [fitsLong, Bool.and_eq_true, decide_eq_true_eq, decide_eq_true_eq]

/-! ## Totals -/

/-- What whole numbers are summed up to: nothing if there are none, and else the exact sum. -/
inductive IsTotal : Value → List Int → Prop
  | nothing : IsTotal .empty []
  | sum {v : Value} {ns : List Int} : ns ≠ [] → v.whole? = some ns.sum → IsTotal v ns

section
variable {v w : Value} {ns ms : List Int}

theorem isEmpty_of_whole? {n : Int} (h : v.whole? = some n) : v.isEmpty = false := by
  cases v <;> first | rfl | cases h

theorem orNull_of_whole? {n : Int} (h : v.whole? = some n) : v.orNull = v := by
  cases v <;> first | rfl | cases h

/-- Totals of lists with one sum are one to the order, whatever their widths. -/
theorem IsTotal.equiv (hv : v.IsTotal ns) (hw : w.IsTotal ms) (hsum : ns.sum = ms.sum)
    (hnil : ns = [] ↔ ms = []) : v.orNull.equiv w.orNull = true := by
  rw [equiv_iff]
  cases hv with
  | nothing =>
    cases hw with
    | nothing => rfl
    | sum hne _ => exact (hne (hnil.1 rfl)).elim
  | sum hne hv =>
    cases hw with
    | nothing => exact (hne (hnil.2 rfl)).elim
    | sum _ hw =>
      rw [orNull_of_whole? hv, orNull_of_whole? hw, key_of_whole? hv, key_of_whole? hw, hsum]

/-- A total counts as the numbers that it is the total of. -/
theorem IsTotal.sum_whole? (hv : v.IsTotal ns) : v.orNull.whole?.toList.sum = ns.sum := by
  cases hv with
  | nothing => rfl
  | sum _ hv => rw [orNull_of_whole? hv, hv, Option.toList_some, List.sum_singleton]

/-- A total counts as none if it is a total of none. -/
theorem IsTotal.whole?_eq_nil (hv : v.IsTotal ns) : v.orNull.whole?.toList = [] ↔ ns = [] := by
  cases hv with
  | nothing => exact Iff.rfl
  | sum hne hv =>
    rw [orNull_of_whole? hv, hv, Option.toList_some]
    exact iff_of_false (List.cons_ne_nil _ _) hne

theorem IsTotal.orNull_ne_double (hv : v.IsTotal ns) (d : Double) : v.orNull ≠ .double d := by
  rintro h
  cases hv with
  | nothing => cases h
  | sum _ hv =>
    rw [← orNull_of_whole? hv, h] at hv
    cases hv

end

end Value
end ShardQuery
