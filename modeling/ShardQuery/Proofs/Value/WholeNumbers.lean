import ShardQuery.Proofs.Value.Totals

/-!
Arithmetic on whole numbers of two widths. Operators are exact or refused: two narrow numbers are
never refused for their size, as what comes of them fits the greater width at least.
-/

namespace ShardQuery

/-- A whole number with its width. -/
inductive WholeNumber where
  | integer (n : Int32)
  | long (n : Int64)

namespace WholeNumber

def value : WholeNumber → Value
  | .integer n => .integer n
  | .long n => .long n

def number : WholeNumber → Int
  | .integer n => n.toInt
  | .long n => n.toInt

def narrow : WholeNumber → Bool
  | .integer _ => true
  | .long _ => false

/-- The whole number of a width. -/
def ofInt (narrow : Bool) (n : Int) : WholeNumber :=
  if narrow then .integer (.ofInt n) else .long (.ofInt n)

variable {a b : WholeNumber}

theorem fitsInteger_iff {n : Int} : fitsInteger n = true ↔ -2 ^ 31 ≤ n ∧ n < 2 ^ 31 := by
  rw [fitsInteger, Bool.and_eq_true, decide_eq_true_eq, decide_eq_true_eq]

theorem whole?_value (a : WholeNumber) : a.value.whole? = some a.number := by
  cases a with
  | integer n => exact congrArg some (Int32.toInt_toInt64 n)
  | long n => rfl

theorem fitsLong_number (a : WholeNumber) : fitsLong a.number = true := by
  rw [Value.fitsLong_iff]
  cases a with
  | integer n =>
    have hlow := n.le_toInt
    have hhigh := n.toInt_lt
    simp only [number]
    omega
  | long n => exact ⟨n.le_toInt, n.toInt_lt⟩

theorem fitsInteger_number (ha : a.narrow = true) : fitsInteger a.number = true := by
  cases a with
  | integer n => exact fitsInteger_iff.2 ⟨n.le_toInt, n.toInt_lt⟩
  | long n => cases ha

theorem ofInt_number (a : WholeNumber) : ofInt a.narrow a.number = a := by
  cases a with
  | integer n => exact congrArg WholeNumber.integer (Int32.ofInt_toInt n)
  | long n => exact congrArg WholeNumber.long (Int64.ofInt_toInt n)

theorem eq_of_number_eq (hn : a.number = b.number) (hw : a.narrow = b.narrow) : a = b := by
  rw [← a.ofInt_number, hn, hw, b.ofInt_number]

theorem narrow_ofInt (narrow : Bool) (n : Int) : (ofInt narrow n).narrow = narrow := by
  cases narrow <;> rfl

theorem number_ofInt {narrow : Bool} {n : Int} (hl : fitsLong n = true)
    (hi : narrow = true → fitsInteger n = true) : (ofInt narrow n).number = n := by
  cases narrow with
  | true =>
    obtain ⟨hlow, hhigh⟩ := fitsInteger_iff.1 (hi rfl)
    exact Int32.toInt_ofInt_of_le hlow hhigh
  | false =>
    obtain ⟨hlow, hhigh⟩ := Value.fitsLong_iff.1 hl
    exact Int64.toInt_ofInt_of_le hlow hhigh

end WholeNumber

namespace Value

def toWhole? : Value → Option WholeNumber
  | .integer n => some (.integer n)
  | .long n => some (.long n)
  | _ => none

variable {v : Value}

theorem toWhole?_eq_some {b : WholeNumber} : v.toWhole? = some b ↔ v = b.value := by
  cases b <;> cases v <;> simp [toWhole?, WholeNumber.value]

end Value

namespace ArithOp
variable {op : ArithOp} {a b : WholeNumber}

/-- Why an operator refuses two whole numbers, if it does. -/
def offence (op : ArithOp) (m n : Int) : Option QueryError :=
  if Value.dividesByZero op n then some .divisionByZero
  else if fitsLong (op.onInts m n) then none
  else some (.overflow s!"LONG {op.noun}")

/-- A sum is refused for its size only. -/
theorem offence_add (m n : Int) :
    add.offence m n = if fitsLong (m + n) then none else some (.overflow "LONG addition") := rfl

theorem fitsLong_onInts (op : ArithOp) {m n : Int} (hm : fitsInteger m = true)
    (hn : fitsInteger n = true) : fitsLong (op.onInts m n) = true := by
  rw [WholeNumber.fitsInteger_iff] at hm hn
  rw [Value.fitsLong_iff]
  have hma : m.natAbs ≤ 2 ^ 31 := by omega
  have hna : n.natAbs ≤ 2 ^ 31 := by omega
  cases op with
  | add | subtract =>
    simp only [onInts]
    omega
  | multiply =>
    have hmul : (m * n).natAbs ≤ 2 ^ 31 * 2 ^ 31 :=
      (Int.natAbs_mul m n).le.trans (Nat.mul_le_mul hma hna)
    simp only [onInts]
    omega
  | divide | realDivide =>
    have hdiv := Int.natAbs_tdiv_le_natAbs m n
    simp only [onInts]
    omega

/-- What an operator makes of two whole numbers. The result is narrow if both are and it fits. -/
def join (op : ArithOp) (a b : WholeNumber) : Except QueryError WholeNumber :=
  let n := op.onInts a.number b.number
  match op.offence a.number b.number with
  | some e => .error e
  | none => .ok (.ofInt (a.narrow && b.narrow && fitsInteger n) n)

/-- Where one number is wide, the result is. -/
theorem applyLongs_value (h : (a.narrow && b.narrow) = false) :
    Value.applyLongs op a.value b.value = (op.join a b).map WholeNumber.value := by
  have ha := a.whole?_value
  have hb := b.whole?_value
  unfold Value.applyLongs join offence
  rw [Value.whole?, Option.map_eq_some_iff] at ha hb
  obtain ⟨x, hx, hxa⟩ := ha
  obtain ⟨y, hy, hyb⟩ := hb
  simp only [hx, hy, hxa, hyb, h, Bool.false_and, Value.ofLongs]
  split
  · rfl
  · split <;> rfl

/-- On whole numbers the operators of a plan are exact. -/
theorem apply_value (hop : op ≠ .realDivide) (a b : WholeNumber) :
    op.apply a.value b.value = (op.join a b).map WholeNumber.value := by
  cases a with
  | integer x =>
    cases b with
    | integer y =>
      have hfits := op.fitsLong_onInts (m := x.toInt) (n := y.toInt)
        (WholeNumber.fitsInteger_number (a := .integer x) rfl)
        (WholeNumber.fitsInteger_number (a := .integer y) rfl)
      have happly : op.apply (.integer x) (.integer y) =
          if Value.dividesByZero op y.toInt then .error .divisionByZero
          else .ok (Value.ofInts (op.onInts x.toInt y.toInt)) := by
        cases op <;> first | rfl | exact (hop rfl).elim
      simp only [WholeNumber.value, happly, join, offence, WholeNumber.number, WholeNumber.narrow,
        hfits, Value.ofInts, Bool.true_and, ↓reduceIte]
      split
      · rfl
      · cases fitsInteger (op.onInts x.toInt y.toInt) <;> rfl
    | long y =>
      rw [← applyLongs_value rfl]
      cases op <;> first | rfl | exact (hop rfl).elim
  | long x =>
    rw [← applyLongs_value rfl]
    cases b <;> cases op <;> first | rfl | exact (hop rfl).elim

theorem join_eq_error {e : QueryError} :
    op.join a b = .error e ↔ op.offence a.number b.number = some e := by
  unfold join
  cases op.offence a.number b.number with
  | some e' => simp
  | none => simp

theorem join_of_offence (h : op.offence a.number b.number = none) :
    ∃ z, op.join a b = .ok z ∧ z.number = op.onInts a.number b.number ∧
      (z.narrow = true ↔ a.narrow = true ∧ b.narrow = true ∧
        fitsInteger (op.onInts a.number b.number) = true) := by
  have hfits : fitsLong (op.onInts a.number b.number) = true := by
    unfold offence at h
    split at h
    · cases h
    · split at h
      · assumption
      · cases h
  refine ⟨_, by rw [join, h], WholeNumber.number_ofInt hfits fun hn => ?_, ?_⟩
  · exact (Bool.and_eq_true _ _ ▸ hn).2
  · rw [WholeNumber.narrow_ofInt, Bool.and_eq_true, Bool.and_eq_true, and_assoc]

/-- What is added to a narrow zero is as it was. -/
theorem zero_join (b : WholeNumber) : add.join (.integer 0) b = .ok b := by
  have hzero : (WholeNumber.integer 0).number = 0 := rfl
  have hsum : add.onInts (WholeNumber.integer 0).number b.number = b.number := by
    rw [hzero]
    exact Int.zero_add _
  have hoffence : add.offence (WholeNumber.integer 0).number b.number = none := by
    rw [hzero, offence_add, Int.zero_add, b.fitsLong_number, if_pos rfl]
  obtain ⟨z, hz, hnumber, hnarrow⟩ := join_of_offence hoffence
  rw [hsum] at hnumber hnarrow
  have hw : z.narrow = b.narrow := by
    rw [Bool.eq_iff_iff, hnarrow]
    exact ⟨fun h => h.2.1, fun h => ⟨rfl, h, WholeNumber.fitsInteger_number h⟩⟩
  rw [hz, WholeNumber.eq_of_number_eq hnumber hw]

end ArithOp

namespace Value

theorem exists_value_of_whole? {v : Value} {n : Int} (h : v.whole? = some n) :
    ∃ a : WholeNumber, v = a.value ∧ a.number = n := by
  cases v with
  | integer m =>
    exact ⟨.integer m, rfl, Option.some.inj ((WholeNumber.integer m).whole?_value.symm.trans h)⟩
  | long m => exact ⟨.long m, rfl, Option.some.inj h⟩
  | _ => cases h

/-- Whole numbers are added exactly, or the sum is refused because it does not fit. -/
theorem add_whole {v w : Value} {m n : Int} (hv : v.whole? = some m) (hw : w.whole? = some n) :
    (∃ t, ArithOp.add.apply v w = .error (.overflow t)) ∨
      ∃ u, ArithOp.add.apply v w = .ok u ∧ u.whole? = some (m + n) := by
  obtain ⟨a, rfl, rfl⟩ := exists_value_of_whole? hv
  obtain ⟨b, rfl, rfl⟩ := exists_value_of_whole? hw
  rw [@ArithOp.apply_value .add (by decide)]
  have hoffence := ArithOp.offence_add a.number b.number
  split at hoffence
  · obtain ⟨z, hz, hnumber, -⟩ := ArithOp.join_of_offence hoffence
    refine .inr ⟨z.value, by rw [hz]; rfl, ?_⟩
    rw [z.whole?_value, hnumber]
    rfl
  · exact .inl ⟨_, by rw [ArithOp.join_eq_error.2 hoffence]; rfl⟩

end Value
end ShardQuery
