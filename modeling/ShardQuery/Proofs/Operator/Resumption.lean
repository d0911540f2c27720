import ShardQuery.Proofs.Operator.Accumulation

/-!
Aggregations that are taken up again: an accumulator is given the result for some values and is
then fed with more. Counts, least values and collections go on as if nothing had happened. A sum and
a greatest value do so only if there was something to give, as they take a null for a value, and a
distinct collection only as far as it knows the values of the array that it is given.
-/

namespace ShardQuery

namespace Value

variable {a b u : Value}

theorem isNumeric_ofInts (n : Int) : (ofInts n).isNumeric = true := by
  unfold ofInts
  split <;> rfl

/-- The sum of two numbers is refused only where it does not fit. -/
theorem overflow_of_add {e : QueryError} (ha : a.isNumeric = true) (hb : b.isNumeric = true)
    (h : ArithOp.add.apply a b = .error e) : ∃ t, e = .overflow t := by
  have hlongs {n : Int} (h : ofLongs .add n = .error e) : ∃ t, e = .overflow t := by
    unfold ofLongs at h
    split at h
    · cases h
    · exact ⟨_, (Except.error.inj h).symm⟩
  cases a with
  | integer m =>
    cases b with
    | integer n => cases h
    | long n => exact hlongs h
    | double d => cases h
    | _ => cases hb
  | long m =>
    cases b with
    | integer n | long n => exact hlongs h
    | double d => cases h
    | _ => cases hb
  | double d =>
    cases b with
    | integer n | long n | double e => cases h
    | _ => cases hb
  | _ => cases ha

theorem add_null (hb : b.isNumeric = true) :
    ArithOp.add.apply .null b = .error (mismatch .add .null b) := by
  cases b with
  | integer n | long n | double d => rfl
  | _ => cases hb

theorem isEmpty_of_isNumeric (h : a.isNumeric = true) : a.isEmpty = false := by
  cases a <;> first | rfl | cases h

/-- Only numbers come of arithmetic. -/
theorem isNumeric_of_apply {op : ArithOp} (h : op.apply a b = .ok u) : u.isNumeric = true := by
  have hdoubles (h : applyDoubles op a b = .ok u) : u.isNumeric = true := by
    unfold applyDoubles at h
    split at h
    · exact Except.ok.inj h ▸ rfl
    · cases h
  have hlongs (h : applyLongs op a b = .ok u) : u.isNumeric = true := by
    unfold applyLongs at h
    split at h
    · split at h
      · cases h
      · unfold ofLongs at h
        split at h
        · exact Except.ok.inj h ▸ rfl
        · cases h
    · cases h
  unfold ArithOp.apply at h
  split at h
  · exact hdoubles h
  · split at h
    · cases h
    · exact Except.ok.inj h ▸ isNumeric_ofInts _
  · exact hdoubles h
  · exact hdoubles h
  · exact hlongs h

/-- Null comes after every value that is not one of the three kinds of nothing. -/
theorem compare_null (h : a.isNullLike = false) : a.compare false .null = .lt := by
  cases a <;> first | rfl | cases h

theorem foldl_extreme_null (vs : List Value) :
    (vs.foldl (extreme .lt) .null).orNull = (vs.foldl (extreme .lt) .empty).orNull := by
  induction vs with
  | nil => rfl
  | cons v vs ih =>
    rw [List.foldl_cons, List.foldl_cons]
    by_cases hv : v.isNullLike = true
    · rw [extreme_of_isNullLike hv, extreme_of_isNullLike hv]
      exact ih
    · have hv : v.isNullLike = false := Bool.not_eq_true _ ▸ hv
      have hnull : extreme .lt .null v = v := by simp [extreme, hv, compare_null hv]
      rw [hnull, extreme_empty, hv]
      rfl

theorem foldl_extreme_gt_null (vs : List Value) : vs.foldl (extreme .gt) .null = .null := by
  induction vs with
  | nil => rfl
  | cons v vs ih =>
    have hnull : extreme .gt .null v = .null := by
      by_cases hv : v.isNullLike = true
      · exact extreme_of_isNullLike hv
      · have hv : v.isNullLike = false := Bool.not_eq_true _ ▸ hv
        simp [extreme, hv, compare_null hv, isEmpty]
    rw [List.foldl_cons, hnull]
    exact ih

end Value

namespace Accumulator

/-- The result for more values of an accumulator that is given the result for some. -/
def resume (a : Accumulator) (xs ys : List Value) : Except QueryError Value := do
  let made ← a.func.ofValues xs
  (ys.foldlM feed (a.setResult made)).map result

/-- When it makes no difference that the result for the first values is all that is known of them.
What the accumulator was fed with before is of account to a distinct collection only: it has to know
of the values to come just those that are in the array that it is given. -/
def Resumes (a : Accumulator) (xs ys : List Value) : Prop :=
  match a.func with
  | .countStar | .count | .countNumbers | .min | .collect => True
  | .sum => (∃ x ∈ xs, x.isNumeric = true) ∨ ∀ y ∈ ys, y.isNumeric = false
  | .max => (∃ x ∈ xs, x.isNullLike = false) ∨ ∀ y ∈ ys, y.isNullLike = true
  | .collectDistinct => ∀ y ∈ ys, y.isEmpty = false → a.seen.any y.equiv = xs.any y.equiv

variable {f : AggregateFunc} {a b : Accumulator} {v : Value} {xs ys : List Value}

/-! ## Results without a memory of what they are made of -/

theorem plus_value (a : Accumulator) (v : Value) :
    (a.plus v).map value = ArithOp.add.apply a.value v := by
  unfold plus
  cases ArithOp.add.apply a.value v <;> rfl

/-- The result so far is all that counts, unless values are told apart. -/
theorem feed_value (hf : a.func = b.func) (hd : a.func ≠ .collectDistinct)
    (hv : a.value = b.value) (v : Value) : (a.feed v).map value = (b.feed v).map value := by
  by_cases hc : a.func.isCount = true
  · rw [feed_count hc, feed_count (hf ▸ hc), ← hf]
    split
    · rw [plus_value, plus_value, hv]
    · exact congrArg Except.ok hv
  cases a with | mk func made seen memory =>
  cases b with | mk func' made' seen' memory' =>
  obtain rfl : func = func' := hf
  obtain rfl : made = made' := hv
  cases func with
  | countStar | count | countNumbers => exact (hc rfl).elim
  | collectDistinct => exact (hd rfl).elim
  | sum =>
    by_cases hn : v.isNumeric = true
    · rw [feed_sum_of_isNumeric rfl hn, feed_sum_of_isNumeric rfl hn]
      split
      · rfl
      · rw [plus_value, plus_value]
    · rw [feed_sum_of_not_isNumeric rfl (Bool.not_eq_true _ ▸ hn),
        feed_sum_of_not_isNumeric rfl (Bool.not_eq_true _ ▸ hn)]
      rfl
  | min | max =>
    simp only [feed, aggregate, keepExtreme_eq]
    rfl
  | collect =>
    simp only [feed, aggregate, collect]
    split <;> rfl

theorem foldlM_feed_value (hf : a.func = b.func) (hd : a.func ≠ .collectDistinct)
    (hv : a.value = b.value) (vs : List Value) :
    (vs.foldlM feed a).map value = (vs.foldlM feed b).map value := by
  induction vs generalizing a b with
  | nil => exact congrArg Except.ok hv
  | cons v vs ih =>
    rw [List.foldlM_cons, List.foldlM_cons]
    have hstep := feed_value hf hd hv v
    cases ha : a.feed v with
    | error e =>
      cases hb : b.feed v with
      | error e' => rw [ha, hb] at hstep; exact hstep
      | ok b' => rw [ha, hb] at hstep; cases hstep
    | ok a' =>
      cases hb : b.feed v with
      | error e' => rw [ha, hb] at hstep; cases hstep
      | ok b' =>
        rw [ha, hb] at hstep
        have ha' := feed_func ha
        have hb' := feed_func hb
        exact ih (ha'.trans (hf.trans hb'.symm)) (ha' ▸ hd) (Except.ok.inj hstep)

end Accumulator

/-- The values that a count, a sum or an extreme does not pass over. -/
def AggregateFunc.heeds : AggregateFunc → Value → Bool
  | .countStar, _ => true
  | .count, v | .min, v | .max, v => !v.isNullLike
  | .countNumbers, v | .sum, v => v.isNumeric
  | .collect, _ | .collectDistinct, _ => false

namespace Accumulator

variable {f : AggregateFunc} {a b : Accumulator} {v : Value} {xs ys : List Value}

theorem plus_isEmpty (h : a.plus v = .ok b) : b.value.isEmpty = false := by
  have hb := plus_value a v
  rw [h] at hb
  exact Value.isEmpty_of_isNumeric (Value.isNumeric_of_apply hb.symm)

theorem heeds_of_isCount (hc : f.isCount = true) (v : Value) : f.heeds v = f.counts v := by
  cases f with
  | countStar | count | countNumbers => rfl
  | sum | min | max | collect | collectDistinct => cases hc

theorem isEmpty_push (made v : Value) : (push made v).isEmpty = made.isEmpty := by
  cases made <;> rfl

/-- There is a result as soon as a value has been heeded. -/
theorem feed_isEmpty (h : a.feed v = .ok b) :
    b.value.isEmpty = (a.value.isEmpty && !a.func.heeds v) := by
  by_cases hc : a.func.isCount = true
  · rw [feed_count hc] at h
    rw [heeds_of_isCount hc]
    cases hv : a.func.counts v with
    | true =>
      rw [hv, if_pos rfl] at h
      rw [plus_isEmpty h, Bool.not_true, Bool.and_false]
    | false =>
      rw [hv, if_neg nofun] at h
      rw [← Except.ok.inj h, Bool.not_false, Bool.and_true]
  cases a with | mk func made seen memory =>
  cases func with
  | countStar | count | countNumbers => exact (hc rfl).elim
  | sum =>
    cases hn : v.isNumeric with
    | true =>
      have hheeds : AggregateFunc.sum.heeds v = true := hn
      rw [feed_sum_of_isNumeric rfl hn] at h
      rw [hheeds, Bool.not_true, Bool.and_false]
      split at h
      · exact Except.ok.inj h ▸ Value.isEmpty_of_isNumeric hn
      · exact plus_isEmpty h
    | false =>
      have hheeds : AggregateFunc.sum.heeds v = false := hn
      rw [feed_sum_of_not_isNumeric rfl hn] at h
      rw [hheeds, ← Except.ok.inj h, Bool.not_false, Bool.and_true]
  | min | max =>
    simp only [feed, aggregate, Placed.value_exact, keepExtreme_eq] at h
    rw [← Except.ok.inj h]
    simp only [setResult, Value.extreme, AggregateFunc.heeds, Bool.not_not]
    cases hv : v.isNullLike with
    | true => rw [if_pos rfl, Bool.and_true]
    | false =>
      rw [if_neg nofun, Bool.and_false]
      split
      · exact Value.isEmpty_of_not_isNullLike hv
      · rename_i hkept
        exact (Bool.or_eq_false_iff.1 (Bool.not_eq_true _ ▸ hkept)).1
  | collect =>
    rw [show AggregateFunc.collect.heeds v = false from rfl, Bool.not_false, Bool.and_true]
    simp only [feed, aggregate, collect] at h
    rw [← Except.ok.inj h]
    split
    · rfl
    · exact isEmpty_push made v
  | collectDistinct =>
    rw [show AggregateFunc.collectDistinct.heeds v = false from rfl, Bool.not_false, Bool.and_true]
    simp only [feed, aggregate, collectDistinct] at h
    rw [← Except.ok.inj h]
    split
    · rfl
    · exact isEmpty_push made v

theorem foldlM_feed_isEmpty (h : xs.foldlM feed a = .ok b) :
    b.value.isEmpty = (a.value.isEmpty && !xs.any a.func.heeds) := by
  induction xs generalizing a with
  | nil =>
    obtain rfl : a = b := Except.ok.inj h
    rw [List.any_nil, Bool.not_false, Bool.and_true]
  | cons x xs ih =>
    rw [List.foldlM_cons] at h
    cases ha : a.feed x with
    | error e => rw [ha] at h; cases h
    | ok a' =>
      rw [ha] at h
      rw [ih h, feed_isEmpty ha, feed_func ha, List.any_cons, Bool.not_or, Bool.and_assoc]

/-! ## Results that stand for their values -/

theorem result_eq_of_filled (h : a.value.isEmpty = false) : a.result = a.value := by
  unfold result
  cases hv : a.value with
  | empty => rw [hv] at h; cases h
  | _ => rfl

theorem map_result (r : Except QueryError Accumulator) :
    r.map result = (r.map value).map Value.orNull := by
  cases r <;> rfl

/-- A result that is there is all that is needed to go on. -/
theorem resume_of_filled (hd : a.func ≠ .collectDistinct)
    (hfilled : a.func.initial.isEmpty = false ∨ xs.any a.func.heeds = true) (ys : List Value) :
    a.resume xs ys = a.func.ofValues (xs ++ ys) := by
  unfold resume AggregateFunc.ofValues
  rw [List.foldlM_append]
  cases hxs : xs.foldlM feed (ofFunc a.func) with
  | error e => rfl
  | ok b =>
    have hfunc : b.func = a.func := foldlM_feed_func (a := ofFunc a.func) hxs
    have hempty : b.value.isEmpty = false := by
      rw [foldlM_feed_isEmpty hxs]
      rcases hfilled with h | h
      · rw [show (ofFunc a.func).value.isEmpty = false from h, Bool.false_and]
      · rw [show xs.any (ofFunc a.func).func.heeds = true from h, Bool.not_true, Bool.and_false]
    change ((ys.foldlM feed (a.setResult b.result)).map result) = (ys.foldlM feed b).map result
    rw [map_result, map_result, result_eq_of_filled hempty]
    have hsame : (a.setResult b.value).func = b.func := hfunc.symm
    exact congrArg _ (foldlM_feed_value hsame hd rfl ys)

/-! ## Results of nothing -/

/-- A sum or an extreme stays as it is where nothing is heeded. -/
theorem foldlM_feed_idle (hi : a.func.initial.isEmpty = true)
    (h : ∀ v ∈ ys, a.func.heeds v = false) : ys.foldlM feed a = .ok a := by
  induction ys with
  | nil => rfl
  | cons v ys ih =>
    obtain ⟨hv, hrest⟩ := List.forall_mem_cons.1 h
    have hstay : a.feed v = .ok a := by
      cases a with | mk func made seen memory =>
      cases func with
      | countStar | count | countNumbers | collect | collectDistinct => cases hi
      | sum => exact feed_sum_of_not_isNumeric rfl hv
      | min | max =>
        have hnull : v.isNullLike = true := by simpa [AggregateFunc.heeds] using hv
        simp only [feed, aggregate, Placed.value_exact, keepExtreme_eq,
          Value.extreme_of_isNullLike hnull]
        rfl
    rw [List.foldlM_cons, hstay]
    exact ih hrest

theorem resume_of_nothing (hi : a.func.initial.isEmpty = true)
    (hxs : ∀ x ∈ xs, a.func.heeds x = false) (ys : List Value) :
    a.resume xs ys = (ys.foldlM feed (a.setResult .null)).map result ∧
      a.func.ofValues (xs ++ ys) = a.func.ofValues ys := by
  have hstart : xs.foldlM feed (ofFunc a.func) = .ok (ofFunc a.func) := foldlM_feed_idle hi hxs
  have hnull : (ofFunc a.func).result = .null := by
    cases a with | mk func made seen memory =>
    cases func with
    | countStar | count | countNumbers | collect | collectDistinct => cases hi
    | sum | min | max => rfl
  unfold resume AggregateFunc.ofValues
  rw [List.foldlM_append, hstart]
  refine ⟨?_, rfl⟩
  change (ys.foldlM feed (a.setResult (ofFunc a.func).result)).map result = _
  rw [hnull]

theorem resume_of_idle (hi : a.func.initial.isEmpty = true)
    (hxs : ∀ x ∈ xs, a.func.heeds x = false) (hys : ∀ y ∈ ys, a.func.heeds y = false) :
    a.resume xs ys = a.func.ofValues (xs ++ ys) := by
  obtain ⟨hresume, hall⟩ := resume_of_nothing hi hxs ys
  have hgiven : ys.foldlM feed (a.setResult .null) = .ok (a.setResult .null) :=
    foldlM_feed_idle hi hys
  have hstart : ys.foldlM feed (ofFunc a.func) = .ok (ofFunc a.func) := foldlM_feed_idle hi hys
  rw [hresume, hall, hgiven, AggregateFunc.ofValues, hstart]
  cases a with | mk func made seen memory =>
  cases func with
  | countStar | count | countNumbers | collect | collectDistinct => cases hi
  | sum | min | max => rfl

/-- A null that a sum was given is refused as soon as there is a number to add. -/
theorem foldlM_feed_sum_null (hf : a.func = .sum) (ha : a.value = .null)
    (h : ∃ y ∈ ys, y.isNumeric = true) :
    ∃ y, ys.foldlM feed a = .error (Value.mismatch .add .null y) := by
  induction ys with
  | nil => exact nomatch h
  | cons v ys ih =>
    rw [List.foldlM_cons]
    cases hv : v.isNumeric with
    | true =>
      refine ⟨v, ?_⟩
      rw [feed_sum_of_isNumeric hf hv, ha, plus, ha, Value.add_null hv]
      rfl
    | false =>
      rw [feed_sum_of_not_isNumeric hf hv]
      refine ih ?_
      obtain ⟨y, hy, hnum⟩ := h
      rcases List.mem_cons.1 hy with rfl | hy
      · rw [hv] at hnum
        cases hnum
      · exact ⟨y, hy, hnum⟩

/-- A sum that was given nothing is a number from the first number on. -/
theorem feed_sum_of_nothing (hf : a.func = .sum)
    (ha : a.value.isEmpty = true ∨ a.value.isNumeric = true) (v : Value) :
    (∃ t, a.feed v = .error (.overflow t)) ∨
      ∃ b, a.feed v = .ok b ∧ (b.value.isEmpty = true ∨ b.value.isNumeric = true) := by
  cases hv : v.isNumeric with
  | false => exact .inr ⟨a, feed_sum_of_not_isNumeric hf hv, ha⟩
  | true =>
    rw [feed_sum_of_isNumeric hf hv]
    split
    · exact .inr ⟨_, rfl, .inr hv⟩
    · rename_i hempty
      have hnum : a.value.isNumeric = true := ha.resolve_left hempty
      unfold plus
      cases hadd : ArithOp.add.apply a.value v with
      | error e =>
        obtain ⟨t, rfl⟩ := Value.overflow_of_add hnum hv hadd
        exact .inl ⟨t, rfl⟩
      | ok u => exact .inr ⟨_, rfl, .inr (Value.isNumeric_of_apply hadd)⟩

theorem overflow_of_foldlM_sum {e : QueryError} (hf : a.func = .sum)
    (ha : a.value.isEmpty = true ∨ a.value.isNumeric = true) (h : ys.foldlM feed a = .error e) :
    ∃ t, e = .overflow t := by
  induction ys generalizing a with
  | nil => cases h
  | cons v ys ih =>
    rw [List.foldlM_cons] at h
    rcases feed_sum_of_nothing hf ha v with ⟨t, hfeed⟩ | ⟨b, hfeed, hb⟩
    · rw [hfeed] at h
      exact ⟨t, (Except.error.inj h).symm⟩
    · rw [hfeed] at h
      exact ih (feed_sum_func hf hfeed) hb h

theorem resume_sum_ne (hf : a.func = .sum) (hxs : ∀ x ∈ xs, x.isNumeric = false)
    (hys : ∃ y ∈ ys, y.isNumeric = true) : a.resume xs ys ≠ a.func.ofValues (xs ++ ys) := by
  have hi : a.func.initial.isEmpty = true := by rw [hf]; rfl
  have hheeds : a.func.heeds = Value.isNumeric := by rw [hf]; rfl
  obtain ⟨hresume, hall⟩ := resume_of_nothing hi (hheeds ▸ hxs) ys
  obtain ⟨y, hnull⟩ := foldlM_feed_sum_null (a := a.setResult .null) hf rfl hys
  rw [hresume, hall, hnull, AggregateFunc.ofValues]
  intro heq
  cases hstart : ys.foldlM feed (ofFunc a.func) with
  | ok b =>
    rw [hstart] at heq
    cases heq
  | error e =>
    rw [hstart] at heq
    obtain ⟨t, rfl⟩ := overflow_of_foldlM_sum (a := ofFunc a.func) hf (.inl hi) hstart
    cases heq

theorem resume_sum_iff (hf : a.func = .sum) :
    a.resume xs ys = a.func.ofValues (xs ++ ys) ↔
      (∃ x ∈ xs, x.isNumeric = true) ∨ ∀ y ∈ ys, y.isNumeric = false := by
  by_cases hxs : ∃ x ∈ xs, x.isNumeric = true
  · refine iff_of_true (resume_of_filled (by rw [hf]; exact nofun) (.inr ?_) ys) (.inl hxs)
    rw [hf]
    simpa [AggregateFunc.heeds] using hxs
  have hnone : ∀ x ∈ xs, x.isNumeric = false := by simpa using hxs
  by_cases hys : ∀ y ∈ ys, y.isNumeric = false
  · exact iff_of_true (resume_of_idle (by rw [hf]; rfl) (hf ▸ hnone) (hf ▸ hys)) (.inr hys)
  · exact iff_of_false (resume_sum_ne hf hnone (by simpa using hys)) (by simp [hxs, hys])

/-! ## Extremes after a null -/

theorem result_of_wanted {wanted : Ordering} (hw : a.func.wanted? = some wanted)
    (vs : List Value) :
    (vs.foldlM feed a).map result = .ok (vs.foldl (Value.extreme wanted) a.value).orNull := by
  have hc : a.func.isCount = false := by
    cases hf : a.func <;> first | rfl | (rw [hf] at hw; cases hw)
  have hs : a.func ≠ .sum := fun hf => by
    rw [hf] at hw
    cases hw
  rw [foldlM_feed_hold hc hs, foldl_hold_extreme hw]
  rfl

/-- Over nothing an extreme goes on from null in the one case, and from no value in the other. -/
theorem extremes_of_nothing {wanted : Ordering} (hw : a.func.wanted? = some wanted)
    (hxs : ∀ x ∈ xs, x.isNullLike = true) (ys : List Value) :
    a.resume xs ys = .ok (ys.foldl (Value.extreme wanted) .null).orNull ∧
      a.func.ofValues (xs ++ ys) = .ok (ys.foldl (Value.extreme wanted) .empty).orNull := by
  have hempty : a.func.initial = .empty := AggregateFunc.initial_of_wanted hw
  have hheeds : ∀ x ∈ xs, a.func.heeds x = false := by
    intro x hx
    cases hf : a.func <;> rw [hf] at hw <;> cases hw
    all_goals rw [AggregateFunc.heeds, hxs x hx, Bool.not_true]
  obtain ⟨hresume, hall⟩ := resume_of_nothing (by rw [hempty]; rfl) hheeds ys
  refine ⟨hresume.trans (result_of_wanted (a := a.setResult .null) hw ys), ?_⟩
  have hstart : (ofFunc a.func).value = .empty := hempty
  rw [hall, AggregateFunc.ofValues, result_of_wanted (a := ofFunc a.func) hw, hstart]

theorem resume_min_of_nothing (hf : a.func = .min) (hxs : ∀ x ∈ xs, x.isNullLike = true)
    (ys : List Value) : a.resume xs ys = a.func.ofValues (xs ++ ys) := by
  obtain ⟨hresume, hall⟩ := extremes_of_nothing (a := a) (by rw [hf]; rfl) hxs ys
  rw [hresume, hall]
  exact congrArg Except.ok (Value.foldl_extreme_null ys)

theorem resume_max_ne (hf : a.func = .max) (hxs : ∀ x ∈ xs, x.isNullLike = true)
    (hys : ∃ y ∈ ys, y.isNullLike = false) : a.resume xs ys ≠ a.func.ofValues (xs ++ ys) := by
  obtain ⟨hresume, hall⟩ := extremes_of_nothing (a := a) (by rw [hf]; rfl) hxs ys
  rw [hresume, hall, Value.foldl_extreme_gt_null]
  intro heq
  have hnull := Except.ok.inj heq
  obtain ⟨y, hy, hynull⟩ := hys
  have hextreme : Value.IsExtreme .gt ys (ys.foldl (Value.extreme .gt) .empty) :=
    Value.isExtreme_foldl (by decide) ys
  rcases hextreme with ⟨-, hnone⟩ | ⟨-, hbest, -⟩
  · rw [hnone y hy] at hynull
    cases hynull
  · rw [Value.orNull_of_not_isNullLike hbest] at hnull
    rw [← hnull] at hbest
    cases hbest

theorem resume_min (hf : a.func = .min) (xs ys : List Value) :
    a.resume xs ys = a.func.ofValues (xs ++ ys) := by
  by_cases hxs : ∃ x ∈ xs, x.isNullLike = false
  · refine resume_of_filled (by rw [hf]; exact nofun) (.inr ?_) ys
    rw [hf]
    simpa [AggregateFunc.heeds] using hxs
  · exact resume_min_of_nothing hf (by simpa using hxs) ys

theorem resume_max_iff (hf : a.func = .max) :
    a.resume xs ys = a.func.ofValues (xs ++ ys) ↔
      (∃ x ∈ xs, x.isNullLike = false) ∨ ∀ y ∈ ys, y.isNullLike = true := by
  by_cases hxs : ∃ x ∈ xs, x.isNullLike = false
  · refine iff_of_true (resume_of_filled (by rw [hf]; exact nofun) (.inr ?_) ys) (.inl hxs)
    rw [hf]
    simpa [AggregateFunc.heeds] using hxs
  have hnone : ∀ x ∈ xs, x.isNullLike = true := by simpa using hxs
  by_cases hys : ∀ y ∈ ys, y.isNullLike = true
  · refine iff_of_true (resume_of_idle (by rw [hf]; rfl) ?_ ?_) (.inr hys)
    · rw [hf]
      simpa [AggregateFunc.heeds] using hnone
    · rw [hf]
      simpa [AggregateFunc.heeds] using hys
  · exact iff_of_false (resume_max_ne hf hnone (by simpa using hys)) (by simp [hxs, hys])

/-! ## Distinct collections -/

/-- The values that a distinct collection which knows some values takes in, in their order. -/
def novel : List Value → List Value → List Value
  | _, [] => []
  | known, v :: vs =>
    if v.isEmpty || known.any v.equiv then novel known vs else v :: novel (v :: known) vs

theorem skips_distinct (hf : a.func = .collectDistinct) (v : Value) :
    a.skips v = (v.isEmpty || a.seen.any v.equiv) := by
  rw [skips, hf]
  rfl

theorem foldl_hold_novel {items : List Value} (hf : a.func = .collectDistinct)
    (ha : a.value = .array items) (vs : List Value) :
    (vs.foldl hold a).value = .array (items ++ novel a.seen vs) := by
  induction vs generalizing a items with
  | nil => rw [novel, List.append_nil]; exact ha
  | cons v vs ih =>
    have hcollects : a.func.collects = true := by rw [hf]; rfl
    rw [List.foldl_cons, novel, ← skips_distinct hf]
    cases hs : a.skips v with
    | true =>
      rw [hold_of_skips hcollects hs, if_pos rfl]
      exact ih hf ha
    | false =>
      have hseen : (a.hold v).seen = v :: a.seen := by
        rw [skips_distinct hf] at hs
        cases a with | mk func made seen memory =>
        obtain rfl := hf
        simp only [hold, collectDistinct, Placed.value_exact, hs, Bool.false_eq_true, ↓reduceIte]
      have hvalue : (a.hold v).value = .array (items ++ [v]) := by
        rw [value_hold hcollects hs, ha]
        rfl
      rw [if_neg Bool.false_ne_true, ih ((hold_func a v).trans hf) hvalue, hseen, List.append_assoc]
      rfl

theorem not_known_of_mem_novel {known vs : List Value} {u : Value} (h : u ∈ novel known vs) :
    known.any u.equiv = false := by
  induction vs generalizing known with
  | nil => cases h
  | cons v vs ih =>
    rw [novel] at h
    split at h
    · exact ih h
    · rename_i hnew
      have hnew := (Bool.or_eq_false_iff.1 (Bool.not_eq_true _ ▸ hnew)).2
      rcases List.mem_cons.1 h with rfl | h
      · exact hnew
      · exact (Bool.or_eq_false_iff.1 (ih h)).2

theorem any_equiv_congr {known : List Value} {u v : Value} (h : u.equiv v = true) :
    known.any u.equiv = known.any v.equiv := by
  have hequiv : u.equiv = v.equiv := by
    funext w
    rw [Bool.eq_iff_iff, Value.equiv_iff, Value.equiv_iff, Value.equiv_iff.1 h]
  rw [hequiv]

theorem any_cons_eq_iff {known other : List Value} {u v : Value}
    (hk : known.any v.equiv = false) (ho : other.any v.equiv = false) :
    (v :: known).any u.equiv = (v :: other).any u.equiv ↔
      known.any u.equiv = other.any u.equiv := by
  rw [List.any_cons, List.any_cons]
  cases huv : u.equiv v with
  | false => rw [Bool.false_or, Bool.false_or]
  | true => simp only [any_equiv_congr huv, hk, ho, Bool.true_or]

/-- Two collections take in the same just if they know the same of the values to come. -/
theorem novel_eq_iff {known other vs : List Value} :
    novel known vs = novel other vs ↔
      ∀ v ∈ vs, v.isEmpty = false → known.any v.equiv = other.any v.equiv := by
  induction vs generalizing known other with
  | nil => exact ⟨fun _ => List.forall_mem_nil _, fun _ => rfl⟩
  | cons v vs ih =>
    rw [List.forall_mem_cons]
    cases he : v.isEmpty with
    | true =>
      simp only [novel, he, Bool.true_or, ↓reduceIte, ih]
      exact ⟨fun h => ⟨nofun, h⟩, And.right⟩
    | false =>
      simp only [novel, he, Bool.false_or]
      cases hk : known.any v.equiv with
      | false =>
        cases ho : other.any v.equiv with
        | false =>
          simp only [Bool.false_eq_true, ↓reduceIte, List.cons.injEq, true_and, ih,
            any_cons_eq_iff hk ho, forall_const]
        | true =>
          refine ⟨fun h => ?_, fun h => nomatch h.1 trivial⟩
          have hmem : v ∈ novel other vs := by
            simp only [Bool.false_eq_true, ↓reduceIte] at h
            exact h ▸ List.mem_cons_self
          exact absurd (not_known_of_mem_novel hmem) (by rw [ho]; exact nofun)
      | true =>
        cases ho : other.any v.equiv with
        | false =>
          refine ⟨fun h => ?_, fun h => nomatch h.1 trivial⟩
          have hmem : v ∈ novel known vs := by
            simp only [Bool.false_eq_true, ↓reduceIte] at h
            exact h ▸ List.mem_cons_self
          exact absurd (not_known_of_mem_novel hmem) (by rw [hk]; exact nofun)
        | true => simp only [↓reduceIte, ih, forall_const, true_and]

/-- What a distinct collection leaves out after some values. -/
theorem skips_foldl_hold (hf : a.func = .collectDistinct) (vs : List Value) (u : Value) :
    (vs.foldl hold a).skips u = (a.skips u || vs.any u.equiv) := by
  induction vs generalizing a with
  | nil => exact (Bool.or_false _).symm
  | cons v vs ih =>
    have hcollects : a.func.collects = true := by rw [hf]; rfl
    rw [List.foldl_cons, ih ((hold_func a v).trans hf), List.any_cons, ← Bool.or_assoc]
    congr 1
    cases hs : a.skips v with
    | true =>
      rw [hold_of_skips hcollects hs]
      cases huv : u.equiv v with
      | false => exact (Bool.or_false _).symm
      | true => rw [skips_congr a huv, hs, Bool.true_or]
    | false => rw [skips_hold hcollects hs, hf, beq_self_eq_true, Bool.true_and]

/-- After some values a distinct collection knows these too. -/
theorem any_seen_foldl_hold (hf : a.func = .collectDistinct) (vs : List Value) {u : Value}
    (hu : u.isEmpty = false) :
    (vs.foldl hold a).seen.any u.equiv = (a.seen.any u.equiv || vs.any u.equiv) := by
  have hskips := skips_foldl_hold hf vs u
  have hlast : (vs.foldl hold a).func = .collectDistinct := (foldl_hold_func ..).trans hf
  rwa [skips_distinct hlast, skips_distinct hf, hu, Bool.false_or, Bool.false_or] at hskips

theorem foldlM_feed_distinct (hf : a.func = .collectDistinct) (vs : List Value) :
    vs.foldlM feed a = .ok (vs.foldl hold a) :=
  foldlM_feed_hold (by rw [hf]; rfl) (by rw [hf]; exact nofun) vs

theorem result_novel {items : List Value} (hf : a.func = .collectDistinct)
    (ha : a.value = .array items) (vs : List Value) :
    (vs.foldlM feed a).map result = .ok (.array (items ++ novel a.seen vs)) := by
  rw [foldlM_feed_distinct hf]
  exact congrArg (fun v : Value => Except.ok v.orNull) (foldl_hold_novel hf ha vs)

theorem resume_distinct_iff (hf : a.func = .collectDistinct) :
    a.resume xs ys = a.func.ofValues (xs ++ ys) ↔
      ∀ y ∈ ys, y.isEmpty = false → a.seen.any y.equiv = xs.any y.equiv := by
  have hstart : (ofFunc a.func).value = .array [] := by rw [hf]; rfl
  have hmade : a.func.ofValues xs = .ok (.array (novel [] xs)) :=
    result_novel (a := ofFunc a.func) hf hstart xs
  have hleft : a.resume xs ys = .ok (.array (novel [] xs ++ novel a.seen ys)) := by
    rw [resume, hmade]
    exact result_novel (a := a.setResult (.array (novel [] xs))) hf rfl ys
  have hright : a.func.ofValues (xs ++ ys) = .ok (.array (novel [] xs ++
      novel (xs.foldl hold (ofFunc a.func)).seen ys)) := by
    rw [AggregateFunc.ofValues, List.foldlM_append, foldlM_feed_distinct (a := ofFunc a.func) hf]
    have hdone : (xs.foldl hold (ofFunc a.func)).func = .collectDistinct :=
      (foldl_hold_func ..).trans hf
    exact result_novel hdone (foldl_hold_novel (a := ofFunc a.func) hf hstart xs) ys
  rw [hleft, hright, Except.ok.injEq, Value.array.injEq, List.append_cancel_left_eq, novel_eq_iff]
  refine forall₂_congr fun y _ => forall_congr' fun he => ?_
  rw [any_seen_foldl_hold (a := ofFunc a.func) hf xs he]
  rfl

/-- An accumulator that is given the result for some values and is then fed with more ends as one
that was fed with all of them just if the values given and to come are such that it makes no
difference. -/
theorem resume_eq_ofValues_iff (a : Accumulator) (xs ys : List Value) :
    a.resume xs ys = a.func.ofValues (xs ++ ys) ↔ a.Resumes xs ys := by
  cases a with | mk func made seen memory =>
  cases func with
  | countStar | count | countNumbers | collect =>
    exact iff_of_true (resume_of_filled (by simp) (.inl rfl) ys) trivial
  | min => exact iff_of_true (resume_min rfl xs ys) trivial
  | sum => exact resume_sum_iff rfl
  | max => exact resume_max_iff rfl
  | collectDistinct => exact resume_distinct_iff rfl

/-- A sum that was given the null of no numbers refuses the next number, a greatest value that was
given one stays null, and a distinct collection does not know what is in its array. -/
theorem resume_ne_ofValues :
    (ofFunc .sum).resume [] [.long 1] ≠ AggregateFunc.sum.ofValues ([] ++ [.long 1]) ∧
      (ofFunc .max).resume [.null] [.long 1] ≠
        AggregateFunc.max.ofValues ([.null] ++ [.long 1]) ∧
      (ofFunc .collectDistinct).resume [.long 1] [.long 1] ≠
        AggregateFunc.collectDistinct.ofValues ([.long 1] ++ [.long 1]) := by
  have hrefused : (ofFunc .sum).resume [] [.long 1] =
      .error (.typeMismatch "cannot apply + to NULL and LONG") := rfl
  have hone : AggregateFunc.sum.ofValues ([] ++ [.long 1]) = .ok (.long 1) := rfl
  have hnull : (ofFunc .max).resume [.null] [.long 1] = .ok .null := rfl
  have hgreatest : AggregateFunc.max.ofValues ([.null] ++ [.long 1]) = .ok (.long 1) := rfl
  have htwice : (ofFunc .collectDistinct).resume [.long 1] [.long 1] =
      .ok (.array [.long 1, .long 1]) := rfl
  have honce : AggregateFunc.collectDistinct.ofValues ([.long 1] ++ [.long 1]) =
      .ok (.array [.long 1]) := rfl
  rw [hrefused, hone, hnull, hgreatest, htwice, honce]
  exact ⟨nofun, nofun, nofun⟩

end Accumulator
end ShardQuery
