import ShardQuery.Proofs.Operator.Accumulation

/-!
Sums of whole numbers, which come as values of rows and as results for parts of a group in any
mixture. A sum is exact up to the first number with which it does not fit 64 bits, and that one
leaves it as it was.
-/

namespace ShardQuery

/-- What an accumulator takes in. -/
inductive Intake where
  /-- The value of a row. -/
  | row (v : Value)
  /-- A result for a part of the group. -/
  | part (v : Value)

namespace Intake

def value : Intake → Value
  | .row v | .part v => v

/-- The whole numbers among the values. -/
def wholes (xs : List Intake) : List WholeNumber := xs.filterMap (·.value.toWhole?)

/-- The exact sum of the whole numbers. -/
def total (xs : List Intake) : Int := ((wholes xs).map WholeNumber.number).sum

/-- The exact sum fits 64 bits all along. -/
def Fits (xs : List Intake) : Prop := ∀ before, before <+: xs → fitsLong (total before) = true

/-- All numbers are narrow, and so is the exact sum all along. -/
def Narrow (xs : List Intake) : Prop :=
  (∀ b ∈ wholes xs, b.narrow = true) ∧ ∀ before, before <+: xs → fitsInteger (total before) = true

variable {xs : List Intake} {x : Intake} {b : WholeNumber}

theorem wholes_concat (xs : List Intake) (x : Intake) :
    wholes (xs ++ [x]) = wholes xs ++ x.value.toWhole?.toList := by
  rw [wholes, List.filterMap_append]
  cases hx : x.value.toWhole? <;> simp [wholes, hx]

theorem wholes_of_none (hx : x.value.toWhole? = none) : wholes (xs ++ [x]) = wholes xs := by
  rw [wholes_concat, hx, Option.toList_none, List.append_nil]

theorem wholes_of_some (hx : x.value.toWhole? = some b) :
    wholes (xs ++ [x]) = wholes xs ++ [b] := by
  rw [wholes_concat, hx, Option.toList_some]

theorem total_of_none (hx : x.value.toWhole? = none) : total (xs ++ [x]) = total xs := by
  rw [total, wholes_of_none hx]
  rfl

theorem total_of_some (hx : x.value.toWhole? = some b) :
    total (xs ++ [x]) = total xs + b.number := by
  rw [total, wholes_of_some hx, List.map_append, List.sum_append, List.map_singleton,
    List.sum_singleton]
  rfl

theorem fits_concat : Fits (xs ++ [x]) ↔ fitsLong (total (xs ++ [x])) = true ∧ Fits xs := by
  simp only [Fits, List.prefix_concat_iff, forall_eq_or_imp]

theorem narrow_of_none (hx : x.value.toWhole? = none) : Narrow (xs ++ [x]) ↔ Narrow xs := by
  simp only [Narrow, List.prefix_concat_iff, forall_eq_or_imp, wholes_of_none hx, total_of_none hx]
  exact and_congr_right fun _ => and_iff_right_of_imp fun h => h xs (List.prefix_refl xs)

theorem narrow_of_some (hx : x.value.toWhole? = some b) :
    Narrow (xs ++ [x]) ↔
      Narrow xs ∧ b.narrow = true ∧ fitsInteger (total xs + b.number) = true := by
  simp only [Narrow, List.prefix_concat_iff, forall_eq_or_imp, wholes_of_some hx, total_of_some hx,
    List.forall_mem_append, List.forall_mem_singleton]
  tauto

end Intake

/-- What a sum shows of what it has taken in: the exact sum, or a null if there was no number. -/
structure Value.IsSum (result : Value) (xs : List Intake) : Prop where
  nothing : Intake.wholes xs = [] → result = .null
  sum : Intake.wholes xs ≠ [] → ∃ z : WholeNumber, result = z.value ∧ z.number = Intake.total xs ∧
    (z.narrow = true ↔ Intake.Narrow xs)

namespace Accumulator
variable {a : Accumulator} {xs : List Intake} {x : Intake} {z : WholeNumber}

def take (a : Accumulator) : Intake → Except QueryError Accumulator
  | .row v => a.feed v
  | .part v => a.absorb v

/-- Takes in what comes up to the first refusal. Says why something was refused and what is left
then. -/
def takeAll : Accumulator → List Intake → Accumulator × Option (QueryError × List Intake)
  | a, [] => (a, none)
  | a, x :: rest =>
    match a.take x with
    | .ok b => b.takeAll rest
    | .error e => (a, some (e, x :: rest))

/-- A sum that has taken in some values, with the sum of their numbers. The first number makes a sum
of nothing, as if it were added to zero. -/
structure Holds (a : Accumulator) (xs : List Intake) (z : WholeNumber) : Prop where
  func : a.func = .sum
  unseen : Intake.wholes xs = [] → a.value = .empty ∧ z = .integer 0
  seen : Intake.wholes xs ≠ [] → a.value = z.value
  number : z.number = Intake.total xs
  narrow : z.narrow = true ↔ Intake.Narrow xs

theorem holds_nil : Holds (ofFunc .sum) [] (.integer 0) where
  func := rfl
  unseen _ := ⟨rfl, rfl⟩
  seen h := (h rfl).elim
  number := rfl
  narrow := by
    refine iff_of_true rfl ⟨List.forall_mem_nil _, fun before h => ?_⟩
    rw [List.prefix_nil.1 h]
    rfl

theorem Holds.isSum (h : a.Holds xs z) : a.result.IsSum xs where
  nothing hn := by rw [result, (h.unseen hn).1, Value.orNull]
  sum hn := by
    refine ⟨z, ?_, h.number, h.narrow⟩
    rw [result, h.seen hn]
    exact Value.orNull_of_whole? z.whole?_value

theorem take_sum (hf : a.func = .sum) (x : Intake) : a.take x = a.feed x.value := by
  cases a with | mk func value seen memory =>
  obtain rfl := hf
  cases x <;> rfl

/-- What is no number is left out of a sum. -/
theorem Holds.take_none (h : a.Holds xs z) (hx : x.value.toWhole? = none)
    (hd : ∀ d, x.value ≠ .double d) : a.take x = .ok a ∧ a.Holds (xs ++ [x]) z := by
  have hn : x.value.isNumeric = false := by
    generalize x.value = v at hx hd
    cases v with
    | double d => exact (hd d rfl).elim
    | integer | long => cases hx
    | _ => rfl
  refine ⟨(take_sum h.func x).trans (feed_sum_of_not_isNumeric h.func hn), h.func, ?_, ?_, ?_, ?_⟩
  · rw [Intake.wholes_of_none hx]
    exact h.unseen
  · rw [Intake.wholes_of_none hx]
    exact h.seen
  · rw [Intake.total_of_none hx]
    exact h.number
  · rw [Intake.narrow_of_none hx]
    exact h.narrow

/-- A number is added to a sum. -/
theorem Holds.take_some {b : WholeNumber} (h : a.Holds xs z) (hx : x.value.toWhole? = some b) :
    a.take x = (ArithOp.add.join z b).map fun y => a.setResult y.value := by
  have hvalue := Value.toWhole?_eq_some.1 hx
  have hn : x.value.isNumeric = true := by
    rw [hvalue]
    cases b <;> rfl
  rw [take_sum h.func, feed_sum_of_isNumeric h.func hn, hvalue]
  by_cases hs : Intake.wholes xs = []
  · -- the accumulator just keeps the first number, which is what adding it to zero gives
    obtain ⟨hempty, rfl⟩ := h.unseen hs
    rw [hempty, ArithOp.zero_join]
    rfl
  · have happly := @ArithOp.apply_value .add (by decide) z b
    have hempty := Value.isEmpty_of_whole? z.whole?_value
    simp only [plus, h.seen hs, happly, hempty, Bool.false_eq_true, ↓reduceIte]
    cases ArithOp.add.join z b <;> rfl

/-- What a sum makes of a value that is no double. -/
theorem Holds.take (h : a.Holds xs z) (hd : ∀ d, x.value ≠ .double d) :
    (fitsLong (Intake.total (xs ++ [x])) = true ∧
      ∃ b y, a.take x = .ok b ∧ b.Holds (xs ++ [x]) y) ∨
    (fitsLong (Intake.total (xs ++ [x])) = false ∧
      a.take x = .error (.overflow "LONG addition")) := by
  cases hx : x.value.toWhole? with
  | none =>
    obtain ⟨htake, hholds⟩ := h.take_none hx hd
    refine .inl ⟨?_, a, z, htake, hholds⟩
    rw [← hholds.number]
    exact z.fitsLong_number
  | some b =>
    have htake := h.take_some hx
    have htotal : Intake.total (xs ++ [x]) = z.number + b.number := by
      rw [Intake.total_of_some hx, h.number]
    have hoffence := ArithOp.offence_add z.number b.number
    rw [htotal]
    cases hfits : fitsLong (z.number + b.number) with
    | false =>
      rw [hfits] at hoffence
      exact .inr ⟨rfl, by rw [htake, ArithOp.join_eq_error.2 hoffence]; rfl⟩
    | true =>
      rw [hfits] at hoffence
      obtain ⟨y, hy, hnumber, hnarrow⟩ := ArithOp.join_of_offence hoffence
      have hne : Intake.wholes (xs ++ [x]) ≠ [] := by
        rw [Intake.wholes_of_some hx]
        exact List.append_ne_nil_of_right_ne_nil _ (List.cons_ne_nil b [])
      refine .inl ⟨rfl, a.setResult y.value, y, by rw [htake, hy]; rfl, ?_⟩
      exact {
        func := h.func
        unseen := fun hn => (hne hn).elim
        seen := fun _ => rfl
        number := hnumber.trans htotal.symm
        narrow := by
          rw [hnarrow, h.narrow, Intake.narrow_of_some hx, ← h.number]
          rfl }

/-- Of a sum that has taken in some values, what becomes of it with those that follow. -/
theorem Holds.takeAll (h : a.Holds xs z) (hfits : Intake.Fits xs) {ys : List Intake}
    (hd : ∀ y ∈ ys, ∀ d, y.value ≠ .double d) :
    (Intake.Fits (xs ++ ys) ∧ (a.takeAll ys).2 = none ∧
      ∃ y, (a.takeAll ys).1.Holds (xs ++ ys) y) ∨
    ∃ taken y left, ys = taken ++ y :: left ∧ Intake.Fits (xs ++ taken) ∧
      fitsLong (Intake.total (xs ++ taken ++ [y])) = false ∧
      (a.takeAll ys).2 = some (.overflow "LONG addition", y :: left) ∧
      ∃ z, (a.takeAll ys).1.Holds (xs ++ taken) z := by
  induction ys generalizing a xs z with
  | nil =>
    rw [List.append_nil]
    exact .inl ⟨hfits, rfl, z, h⟩
  | cons y ys ih =>
    obtain ⟨hy, hd⟩ := List.forall_mem_cons.1 hd
    rcases h.take hy with ⟨hlong, b, w, htake, hb⟩ | ⟨hlong, htake⟩
    · have hrest := ih hb (Intake.fits_concat.2 ⟨hlong, hfits⟩) hd
      simp only [Accumulator.takeAll, htake]
      rw [List.append_cons]
      refine hrest.imp_right ?_
      rintro ⟨taken, x, left, rfl, htaken, hx, hstop, hholds⟩
      refine ⟨y :: taken, x, left, rfl, ?_⟩
      rw [List.append_cons]
      exact ⟨htaken, hx, hstop, hholds⟩
    · simp only [Accumulator.takeAll, htake]
      refine .inr ⟨[], y, ys, rfl, ?_⟩
      rw [List.append_nil]
      exact ⟨hfits, hlong, rfl, z, h⟩

/-- A sum of values without doubles is exact up to the first value with which it does not fit 64
bits. That value is refused, and the sum is as it was. -/
theorem takeAll_sum {xs : List Intake} (hd : ∀ x ∈ xs, ∀ d, x.value ≠ .double d) :
    (Intake.Fits xs ∧ ((ofFunc .sum).takeAll xs).2 = none ∧
      ((ofFunc .sum).takeAll xs).1.result.IsSum xs) ∨
    ∃ taken x left, xs = taken ++ x :: left ∧ Intake.Fits taken ∧
      fitsLong (Intake.total (taken ++ [x])) = false ∧
      ((ofFunc .sum).takeAll xs).2 = some (.overflow "LONG addition", x :: left) ∧
      ((ofFunc .sum).takeAll xs).1.result.IsSum taken := by
  have hnil : Intake.Fits [] := fun before h => by
    rw [List.prefix_nil.1 h]
    rfl
  rcases holds_nil.takeAll hnil hd with ⟨hfits, hnone, z, h⟩ | ⟨taken, x, left, hxs, hstop⟩
  · exact .inl ⟨hfits, hnone, h.isSum⟩
  · obtain ⟨hfits, hlong, hsome, z, h⟩ := hstop
    exact .inr ⟨taken, x, left, hxs, hfits, hlong, hsome, h.isSum⟩

/-- A sum becomes wide, and the fifth value is refused. -/
theorem takeAll_sum_widths :
    let xs : List Intake := [.row (.integer 2147483647), .part .null, .row (.text "x"),
      .part (.integer 1), .row (.long 9223372034707292160), .part (.integer (-5))]
    ∃ taken x left, xs = taken ++ x :: left ∧ Intake.Fits taken ∧
      fitsLong (Intake.total (taken ++ [x])) = false ∧ left = [.part (.integer (-5))] ∧
      ((ofFunc .sum).takeAll xs).1.result.IsSum taken ∧
      ((ofFunc .sum).takeAll xs).1.result = .long 2147483648 := by
  intro xs
  have hd : ∀ x ∈ xs, ∀ d, x.value ≠ .double d := by simp [xs, Intake.value]
  have hstop : ((ofFunc .sum).takeAll xs).2 = some (.overflow "LONG addition",
      [.row (.long 9223372034707292160), .part (.integer (-5))]) := rfl
  rcases takeAll_sum hd with ⟨-, hnone, -⟩ | ⟨taken, x, left, hxs, hfits, hlong, hsome, hsum⟩
  · cases hnone.symm.trans hstop
  · cases hsome.symm.trans hstop
    exact ⟨taken, _, _, hxs, hfits, hlong, rfl, hsum, rfl⟩

end Accumulator
end ShardQuery
