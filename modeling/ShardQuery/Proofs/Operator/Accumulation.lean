import ShardQuery.Operator.Accumulator
import ShardQuery.Proofs.Value.Extremes
import ShardQuery.Proofs.Value.Runs
import ShardQuery.Proofs.Value.WholeNumbers

/-!
Accumulators over many values. A function's result for a group can be had in parts: results for
parts of the group, merged in their order, make the result for all of it. A sum may come in another
width, as it is wide as soon as one of its parts is.
-/

namespace ShardQuery

namespace Accumulator

/-- The accumulator when it has taken in the value of a row. -/
def feed (a : Accumulator) (v : Value) : Except QueryError Accumulator :=
  (a.aggregate v).map (·.2)

/-- The accumulator when it has taken in the result for a part of the group. -/
def absorb (a : Accumulator) (v : Value) : Except QueryError Accumulator :=
  (a.merge v).map (·.2)

/-- What a value that is not collected makes the accumulator grow by is of no account. -/
theorem map_snd_map (r : Except QueryError Accumulator) : (r.map ((0 : Nat), ·)).map (·.2) = r := by
  cases r <;> rfl

end Accumulator

namespace AggregateFunc

/-- The result of one accumulator for the values of rows. -/
def ofValues (func : AggregateFunc) (vs : List Value) : Except QueryError Value :=
  (vs.foldlM Accumulator.feed (.ofFunc func)).map Accumulator.result

/-- The result of one accumulator for results of parts of a group. -/
def ofPartials (func : AggregateFunc) (ps : List Value) : Except QueryError Value :=
  (ps.foldlM Accumulator.absorb (.ofFunc func)).map Accumulator.result

/-- The result that is had in parts, with an accumulator for each. -/
def ofParts (func : AggregateFunc) (parts : List (List Value)) : Except QueryError Value := do
  func.ofPartials (← parts.mapM func.ofValues)

/-- The values that a counting function counts. -/
def counts : AggregateFunc → Value → Bool
  | .countStar, _ => true
  | .count, v => !v.isNullLike
  | .countNumbers, v => v.isNumeric
  | _, _ => false

/-- How a value has to compare with the one kept so far to be kept instead. -/
def wanted? : AggregateFunc → Option Ordering
  | .min => some .lt
  | .max => some .gt
  | _ => none

/-- The functions that collect values. -/
def collects : AggregateFunc → Bool
  | .collect | .collectDistinct => true
  | _ => false

/-- A function that neither counts nor sums up collects values or keeps one. -/
theorem collects_or_wanted {func : AggregateFunc} (hc : func.isCount = false) (hs : func ≠ .sum) :
    func.collects = true ∨ ∃ wanted, func.wanted? = some wanted ∧ wanted ≠ .eq := by
  cases func with
  | countStar | count | countNumbers => cases hc
  | sum => exact (hs rfl).elim
  | min => exact .inr ⟨.lt, rfl, nofun⟩
  | max => exact .inr ⟨.gt, rfl, nofun⟩
  | collect | collectDistinct => exact .inl rfl

theorem initial_of_wanted {func : AggregateFunc} {wanted : Ordering}
    (hw : func.wanted? = some wanted) : func.initial = .empty := by
  cases func with
  | min | max => rfl
  | countStar | count | countNumbers | sum | collect | collectDistinct => cases hw

end AggregateFunc

namespace Accumulator

variable {f : AggregateFunc} {a : Accumulator} {v u : Value}

/-! ## Extremes -/

theorem keepExtreme_eq (a : Accumulator) (wanted : Ordering) (v : Value) :
    a.keepExtreme wanted v = a.setResult (Value.extreme wanted a.value v) := by
  unfold keepExtreme Value.extreme setResult
  split
  · rfl
  · split <;> rfl

/-- What an extreme or a collection makes of a value, which it never refuses. -/
def hold (a : Accumulator) (v : Value) : Accumulator :=
  match a.func with
  | .min => a.keepExtreme .lt v
  | .max => a.keepExtreme .gt v
  | .collect => (a.collect v).2
  | .collectDistinct => (a.collectDistinct v).2
  | .countStar | .count | .countNumbers | .sum => a

theorem hold_func (a : Accumulator) (v : Value) : (a.hold v).func = a.func := by
  unfold hold
  split
  · rw [keepExtreme_eq]
    rfl
  · rw [keepExtreme_eq]
    rfl
  · unfold collect
    split <;> rfl
  · unfold collectDistinct
    split <;> rfl
  all_goals rfl

theorem foldl_hold_func (a : Accumulator) (vs : List Value) :
    (vs.foldl hold a).func = a.func := by
  induction vs generalizing a with
  | nil => rfl
  | cons v vs ih => exact (ih (a.hold v)).trans (hold_func a v)

theorem feed_hold (hc : a.func.isCount = false) (hs : a.func ≠ .sum) (v : Value) :
    a.feed v = .ok (a.hold v) := by
  cases a with | mk func value seen memory =>
  cases func with
  | countStar | count | countNumbers => cases hc
  | sum => exact (hs rfl).elim
  | min | max | collect | collectDistinct => rfl

theorem foldlM_feed_hold (hc : a.func.isCount = false) (hs : a.func ≠ .sum) (vs : List Value) :
    vs.foldlM feed a = .ok (vs.foldl hold a) := by
  induction vs generalizing a with
  | nil => rfl
  | cons v vs ih =>
    rw [List.foldlM_cons, feed_hold hc hs]
    have hf := hold_func a v
    exact ih (hf ▸ hc) (hf ▸ hs)

theorem hold_extreme {wanted : Ordering} (hw : a.func.wanted? = some wanted) (v : Value) :
    a.hold v = a.setResult (Value.extreme wanted a.value v) := by
  rw [← keepExtreme_eq]
  cases a with | mk func value seen memory =>
  cases func <;> cases hw <;> rfl

theorem foldl_hold_extreme {wanted : Ordering} (hw : a.func.wanted? = some wanted)
    (vs : List Value) :
    vs.foldl hold a = a.setResult (vs.foldl (Value.extreme wanted) a.value) := by
  induction vs generalizing a with
  | nil => rfl
  | cons v vs ih =>
    rw [List.foldl_cons, hold_extreme hw]
    exact ih hw

/-! ## Collections -/

/-- Whether a collection leaves a value out. -/
def skips (a : Accumulator) (v : Value) : Bool :=
  v.isEmpty || (a.func == .collectDistinct && a.seen.any v.equiv)

theorem hold_of_skips (hf : a.func.collects = true) (hs : a.skips v = true) : a.hold v = a := by
  cases a with | mk func value seen memory =>
  cases func with
  | countStar | count | countNumbers | sum | min | max => cases hf
  | collect =>
    have he : v.isEmpty = true := (Bool.or_false _).symm.trans hs
    simp only [hold, collect, Placed.value_exact, he, ↓reduceIte]
  | collectDistinct =>
    have he : (v.isEmpty || seen.any v.equiv) = true := hs
    simp only [hold, collectDistinct, Placed.value_exact, he, ↓reduceIte]

theorem value_hold (hf : a.func.collects = true) (hs : a.skips v = false) :
    (a.hold v).value = push a.value v := by
  cases a with | mk func value seen memory =>
  cases func with
  | countStar | count | countNumbers | sum | min | max => cases hf
  | collect =>
    have he : v.isEmpty = false := (Bool.or_false _).symm.trans hs
    simp only [hold, collect, Placed.value_exact, he, Bool.false_eq_true, ↓reduceIte]
  | collectDistinct =>
    have he : (v.isEmpty || seen.any v.equiv) = false := hs
    simp only [hold, collectDistinct, Placed.value_exact, he, Bool.false_eq_true, ↓reduceIte]

/-- A distinct collection leaves out what it has taken in, and what it left out before. -/
theorem skips_hold (hf : a.func.collects = true) (hs : a.skips v = false) (u : Value) :
    (a.hold v).skips u = (a.skips u || (a.func == .collectDistinct && u.equiv v)) := by
  cases a with | mk func value seen memory =>
  cases func with
  | countStar | count | countNumbers | sum | min | max => cases hf
  | collect =>
    have he : v.isEmpty = false := (Bool.or_false _).symm.trans hs
    simp [hold, collect, skips, he]
  | collectDistinct =>
    have he : (v.isEmpty || seen.any v.equiv) = false := hs
    simp [hold, collectDistinct, skips, he, Bool.or_assoc, Bool.or_comm (u.equiv v)]

theorem skips_congr (a : Accumulator) (h : u.equiv v = true) : a.skips u = a.skips v := by
  have hkey : u.key = v.key := Value.equiv_iff.1 h
  have hempty : u.isEmpty = v.isEmpty := by
    by_cases hu : u = .empty
    · have hv : v = .empty := Value.key_eq_empty.1 (hkey.symm.trans (Value.key_eq_empty.2 hu))
      rw [hu, hv]
    · have hv : v ≠ .empty := fun hv => hu (Value.key_eq_empty.1 (hkey.trans (hv ▸ rfl)))
      cases u <;> cases v <;> first | rfl | exact (hu rfl).elim | exact (hv rfl).elim
  have hequiv : u.equiv = v.equiv := by
    funext w
    rw [Bool.eq_iff_iff, Value.equiv_iff, Value.equiv_iff, hkey]
  rw [skips, hempty, hequiv]
  rfl

/-- What is collected of some values makes the same of an accumulator as the values do. -/
theorem foldl_hold_collected (hf : f.collects = true) (ha : a.func = f) (vs : List Value) :
    ∃ items, (vs.foldl hold (ofFunc f)).value = .array items ∧
      items.foldl hold a = vs.foldl hold a ∧
      ∀ u, (vs.foldl hold (ofFunc f)).skips u = true → (vs.foldl hold a).skips u = true := by
  induction vs using List.reverseRecOn with
  | nil =>
    refine ⟨[], ?_, rfl, ?_⟩
    · cases f <;> first | rfl | cases hf
    · intro u hu
      have hempty : u.isEmpty = true := by simpa [skips, ofFunc] using hu
      simp [skips, hempty]
  | append_singleton vs v ih =>
    obtain ⟨items, hvalue, hagain, hskips⟩ := ih
    simp only [List.foldl_concat]
    have hp : (vs.foldl hold (ofFunc f)).func = f := foldl_hold_func ..
    have hb : (vs.foldl hold a).func = f := (foldl_hold_func ..).trans ha
    generalize vs.foldl hold (ofFunc f) = p at hvalue hskips hp
    generalize vs.foldl hold a = b at hagain hskips hb
    by_cases hs : p.skips v = true
    · rw [hold_of_skips (hp ▸ hf) hs, hold_of_skips (hb ▸ hf) (hskips v hs)]
      exact ⟨items, hvalue, hagain, hskips⟩
    have hs : p.skips v = false := Bool.not_eq_true _ ▸ hs
    refine ⟨items ++ [v], ?_, ?_, ?_⟩
    · rw [value_hold (hp ▸ hf) hs, hvalue]
      rfl
    · rw [List.foldl_concat, hagain]
    intro u hu
    rw [skips_hold (hp ▸ hf) hs, Bool.or_eq_true] at hu
    by_cases hbv : b.skips v = true
    · rw [hold_of_skips (hb ▸ hf) hbv]
      rcases hu with hu | hu
      · exact hskips u hu
      · rw [skips_congr b (Bool.and_eq_true .. ▸ hu).2]
        exact hbv
    · rw [skips_hold (hb ▸ hf) (Bool.not_eq_true _ ▸ hbv), Bool.or_eq_true, hb]
      rw [hp] at hu
      exact hu.imp_left (hskips u)

theorem aggregateAll_eq (a : Accumulator) (vs : List Value) :
    (a.aggregateAll (vs.map .exact)).map (·.2) = vs.foldlM feed a := by
  induction vs generalizing a with
  | nil => rfl
  | cons v vs ih =>
    rw [List.foldlM_cons, feed, List.map_cons, aggregateAll]
    cases a.aggregate v with
    | error e => rfl
    | ok r =>
      refine Eq.trans ?_ (ih r.2)
      change Except.map _ (r.2.aggregateAll (vs.map .exact) >>= _) = _
      cases r.2.aggregateAll (vs.map .exact) <;> rfl

theorem absorb_array (hf : a.func.collects = true) (items : List Value) :
    a.absorb (.array items) = items.foldlM feed a := by
  rw [← aggregateAll_eq]
  cases a with | mk func value seen memory =>
  cases func with
  | collect | collectDistinct => rfl
  | countStar | count | countNumbers | sum | min | max => cases hf

theorem absorb_extreme {wanted : Ordering} (hw : a.func.wanted? = some wanted) (v : Value) :
    a.absorb v = .ok (a.setResult (Value.extreme wanted a.value v)) := by
  rw [← hold_extreme hw]
  cases a with | mk func value seen memory =>
  cases func with
  | min | max => rfl
  | countStar | count | countNumbers | sum | collect | collectDistinct => cases hw

/-- An extreme or a collection of a part makes the same of an accumulator as its values do. -/
theorem absorb_held (hc : f.isCount = false) (hs : f ≠ .sum) (us vs : List Value) :
    (us.foldl hold (ofFunc f)).absorb (vs.foldl hold (ofFunc f)).result =
      .ok (vs.foldl hold (us.foldl hold (ofFunc f))) := by
  have ha : (us.foldl hold (ofFunc f)).func = f := foldl_hold_func ..
  rcases f.collects_or_wanted hc hs with hf | ⟨wanted, hw, hne⟩
  · obtain ⟨items, hvalue, hagain, -⟩ := foldl_hold_collected hf ha vs
    rw [result, hvalue, ← hagain]
    generalize us.foldl hold (ofFunc f) = a at ha
    obtain rfl := ha
    exact (absorb_array hf items).trans (foldlM_feed_hold hc hs items)
  · have hempty : (ofFunc f).value = .empty := AggregateFunc.initial_of_wanted hw
    have hkept : (us.foldl (Value.extreme wanted) .empty).Kept :=
      Value.foldl_extreme_kept us (.inl rfl)
    have hstart : (ofFunc f).func.wanted? = some wanted := hw
    rw [foldl_hold_extreme hstart, foldl_hold_extreme hstart, hempty, absorb_extreme hw,
      foldl_hold_extreme hw]
    have hvalue := Value.extreme_foldl hne hkept vs
    exact congrArg (fun v => Except.ok ((ofFunc f).setResult v)) hvalue

/-! ## Counts -/

/-- A counting accumulator that has come to a number. -/
def counting (func : AggregateFunc) (n : Int) : Accumulator :=
  { func, value := .long (Int64.ofInt n) }

variable {m n : Int}

theorem ofFunc_counting (hc : f.isCount = true) : ofFunc f = counting f 0 := by
  cases f <;> first | rfl | cases hc

theorem plus_counting (hn : fitsLong n = true) (hv : v.whole? = some m) :
    (counting f n).plus v =
      if fitsLong (n + m) then .ok (counting f (n + m))
      else .error (.overflow "LONG addition") := by
  obtain ⟨hlow, hhigh⟩ := Value.fitsLong_iff.1 hn
  have hn : (Int64.ofInt n).toInt = n := Int64.toInt_ofInt_of_le hlow hhigh
  have hadd := Value.add_long (Int64.ofInt n) hv
  rw [hn, Value.ofLongs] at hadd
  change (ArithOp.add.apply (.long (Int64.ofInt n)) v >>= _) = _
  rw [hadd]
  split <;> rfl

theorem feed_count (hc : a.func.isCount = true) (v : Value) :
    a.feed v = if a.func.counts v then a.plus (.long 1) else .ok a := by
  cases a with | mk func made seen memory =>
  cases func with
  | countStar => exact map_snd_map _
  | count =>
    cases hv : v.isNullLike with
    | true => simp [feed, aggregate, AggregateFunc.counts, hv, Except.map]
    | false =>
      simp only [feed, aggregate, AggregateFunc.counts, Placed.value_exact, hv, Bool.false_eq_true,
        Bool.not_false, ↓reduceIte]
      exact map_snd_map _
  | countNumbers =>
    cases hv : v.isNumeric with
    | true =>
      simp only [feed, aggregate, AggregateFunc.counts, Placed.value_exact, hv, ↓reduceIte]
      exact map_snd_map _
    | false => simp [feed, aggregate, AggregateFunc.counts, hv, Except.map]
  | sum | min | max | collect | collectDistinct => cases hc

/-- As long as the numbers fit, what is counted is added to what was counted before. -/
theorem foldlM_feed_counting (hc : f.isCount = true) (hn : 0 ≤ n) (vs : List Value)
    (h : n + vs.countP f.counts < 2 ^ 63) :
    vs.foldlM feed (counting f n) = .ok (counting f (n + vs.countP f.counts)) := by
  induction vs generalizing n with
  | nil =>
    rw [List.countP_nil, Int.natCast_zero, Int.add_zero]
    rfl
  | cons v vs ih =>
    have hfeed : (counting f n).feed v =
        if f.counts v then (counting f n).plus (.long 1) else .ok (counting f n) :=
      feed_count hc v
    rw [List.foldlM_cons, hfeed]
    by_cases hv : f.counts v = true
    · rw [List.countP_cons_of_pos hv, Int.natCast_succ] at h ⊢
      have hfits : fitsLong n = true := Value.fitsLong_iff.2 (by omega)
      have hnext : fitsLong (n + 1) = true := Value.fitsLong_iff.2 (by omega)
      have hone : (Value.long 1).whole? = some 1 := rfl
      rw [if_pos hv, plus_counting hfits hone, if_pos hnext]
      refine (ih (by omega) (by omega)).trans ?_
      rw [Int.add_assoc, Int.add_comm 1]
    · rw [List.countP_cons_of_neg hv] at h ⊢
      rw [if_neg hv]
      exact ih hn h

theorem absorb_counting (hc : f.isCount = true) (hv : v.isNumeric = true) :
    (counting f n).absorb v = (counting f n).plus v := by
  rw [← map_snd_map ((counting f n).plus v)]
  unfold absorb merge
  cases f with
  | countStar | count | countNumbers => simp only [counting, Placed.value_exact, hv, ↓reduceIte]
  | sum | min | max | collect | collectDistinct => cases hc

/-! ## Parts of a group -/

/-- Merging the result for some values makes the same of an accumulator as they do, and nothing is
refused. The accumulator may have taken in others before. -/
def Divides (f : AggregateFunc) (us vs : List Value) : Prop :=
  ∃ a b, us.foldlM feed (ofFunc f) = .ok a ∧ vs.foldlM feed a = .ok b ∧
    ∃ p, f.ofValues vs = .ok p ∧ a.absorb p = .ok b

theorem divides_of_isCount (hc : f.isCount = true) {us vs : List Value}
    (h : (us ++ vs).countP f.counts < 2 ^ 63) : Divides f us vs := by
  rw [List.countP_append] at h
  have hus := foldlM_feed_counting hc (le_refl 0) us (by omega)
  have hpart := foldlM_feed_counting hc (le_refl 0) vs (by omega)
  rw [← ofFunc_counting hc, Int.zero_add] at hus hpart
  have hvs := foldlM_feed_counting (n := us.countP f.counts) hc (by omega) vs (by omega)
  refine ⟨_, _, hus, hvs, (counting f (vs.countP f.counts)).result, ?_, ?_⟩
  · rw [AggregateFunc.ofValues, hpart]
    rfl
  · have hlow : fitsLong (us.countP f.counts) = true := Value.fitsLong_iff.2 (by omega)
    have hsum : fitsLong (us.countP f.counts + vs.countP f.counts) = true :=
      Value.fitsLong_iff.2 (by omega)
    have hwhole :
        (counting f (vs.countP f.counts)).result.whole? = some (vs.countP f.counts : Int) :=
      congrArg some (Int64.toInt_ofInt_of_le (by omega) (by omega))
    rw [absorb_counting hc rfl, plus_counting hlow hwhole, if_pos hsum]

theorem divides_of_not_isCount (hc : f.isCount = false) (hs : f ≠ .sum) (us vs : List Value) :
    Divides f us vs := by
  have hheld (xs : List Value) : xs.foldlM feed (ofFunc f) = .ok (xs.foldl hold (ofFunc f)) :=
    foldlM_feed_hold (a := ofFunc f) hc hs xs
  have hf : (us.foldl hold (ofFunc f)).func = f := foldl_hold_func ..
  refine ⟨_, _, hheld us, foldlM_feed_hold ?_ ?_ vs, _, ?_, absorb_held hc hs us vs⟩
  · rw [hf]
    exact hc
  · rw [hf]
    exact hs
  · rw [AggregateFunc.ofValues, hheld vs]
    rfl

theorem divides (hs : f ≠ .sum) {us vs : List Value}
    (h : f.isCount = true → (us ++ vs).countP f.counts < 2 ^ 63) : Divides f us vs := by
  by_cases hc : f.isCount = true
  · exact divides_of_isCount hc (h hc)
  · exact divides_of_not_isCount (Bool.not_eq_true _ ▸ hc) hs us vs

/-- Merging the results of all parts in order makes the same as all values. -/
theorem absorb_parts (hs : f ≠ .sum) (us : List Value) (parts : List (List Value))
    (hc : f.isCount = true → (us ++ parts.flatten).countP f.counts < 2 ^ 63) :
    ∃ a b, us.foldlM feed (ofFunc f) = .ok a ∧ parts.flatten.foldlM feed a = .ok b ∧
      ∃ ps, parts.mapM f.ofValues = .ok ps ∧ ps.foldlM absorb a = .ok b := by
  induction parts generalizing us with
  | nil =>
    have hnone : Divides f us [] := divides hs hc
    obtain ⟨a, -, ha, -⟩ := hnone
    exact ⟨a, a, ha, rfl, [], rfl, rfl⟩
  | cons vs parts ih =>
    rw [List.flatten_cons, ← List.append_assoc] at hc
    have hpart (hcount : f.isCount = true) : (us ++ vs).countP f.counts < 2 ^ 63 := by
      have hlt := hc hcount
      rw [List.countP_append] at hlt
      omega
    obtain ⟨a, b, ha, hb, p, hp, hab⟩ := divides hs hpart
    obtain ⟨b', e, hb', he, ps, hps, hfold⟩ := ih (us ++ vs) hc
    have hsame : b' = b := by
      rw [List.foldlM_append, ha] at hb'
      exact Except.ok.inj (hb'.symm.trans hb)
    subst hsame
    refine ⟨a, e, ha, ?_, p :: ps, ?_, ?_⟩
    · rw [List.flatten_cons, List.foldlM_append, hb]
      exact he
    · rw [List.mapM_cons, hp, hps]
      rfl
    · rw [List.foldlM_cons, hab]
      exact hfold

/-! ## Sums -/

variable {ns : List Int}

theorem feed_sum_of_isNumeric (hf : a.func = .sum) (hv : v.isNumeric = true) :
    a.feed v = if a.value.isEmpty then .ok (a.setResult v) else a.plus v := by
  cases a with | mk func value seen memory =>
  obtain rfl := hf
  simp only [feed, aggregate, Placed.value_exact, hv, Bool.not_true, Bool.false_eq_true,
    ↓reduceIte]
  split
  · rfl
  · exact map_snd_map _

theorem feed_sum_of_not_isNumeric (hf : a.func = .sum) (hv : v.isNumeric = false) :
    a.feed v = .ok a := by
  cases a with | mk func value seen memory =>
  obtain rfl := hf
  simp only [feed, aggregate, Placed.value_exact, hv, Bool.not_false, ↓reduceIte]
  rfl

theorem plus_func {b : Accumulator} (h : a.plus v = .ok b) : b.func = a.func := by
  unfold plus at h
  cases hadd : ArithOp.add.apply a.value v with
  | error e =>
    rw [hadd] at h
    cases h
  | ok u =>
    rw [hadd] at h
    cases h
    rfl

theorem feed_sum_func {b : Accumulator} (hf : a.func = .sum) (h : a.feed v = .ok b) :
    b.func = .sum := by
  by_cases hv : v.isNumeric = true
  · rw [feed_sum_of_isNumeric hf hv] at h
    split at h
    · cases h
      exact hf
    · exact (plus_func h).trans hf
  · rw [feed_sum_of_not_isNumeric hf (Bool.not_eq_true _ ▸ hv)] at h
    cases h
    exact hf

theorem feed_func {b : Accumulator} (h : a.feed v = .ok b) : b.func = a.func := by
  by_cases hc : a.func.isCount = true
  · rw [feed_count hc] at h
    split at h
    · exact plus_func h
    · exact Except.ok.inj h ▸ rfl
  by_cases hs : a.func = .sum
  · exact (feed_sum_func hs h).trans hs.symm
  · rw [feed_hold (Bool.not_eq_true _ ▸ hc) hs] at h
    exact Except.ok.inj h ▸ hold_func a v

theorem foldlM_feed_func {b : Accumulator} {xs : List Value} (h : xs.foldlM feed a = .ok b) :
    b.func = a.func := by
  induction xs generalizing a with
  | nil => exact Except.ok.inj h ▸ rfl
  | cons x xs ih =>
    rw [List.foldlM_cons] at h
    cases ha : a.feed x with
    | error e => rw [ha] at h; cases h
    | ok a' =>
      rw [ha] at h
      exact (ih h).trans (feed_func ha)

/-- What a sum makes of a value that is not a double: the exact sum, unless it does not fit. -/
theorem feed_sum (hf : a.func = .sum) (ha : a.value.IsTotal ns) (hv : ∀ d, v ≠ .double d) :
    (∃ t, a.feed v = .error (.overflow t)) ∨
      ∃ b, a.feed v = .ok b ∧ b.value.IsTotal (ns ++ v.whole?.toList) := by
  by_cases hn : v.isNumeric = true
  · obtain ⟨n, hwhole⟩ := Value.whole?_of_isNumeric hn hv
    rw [hwhole, Option.toList_some, feed_sum_of_isNumeric hf hn]
    cases a with | mk func value seen memory =>
    cases ha with
    | nothing =>
      have hsum : v.whole? = some ([] ++ [n]).sum := by simpa using hwhole
      exact .inr ⟨_, rfl, .sum (List.cons_ne_nil n []) hsum⟩
    | sum hne ha =>
      have hempty : value.isEmpty = false := Value.isEmpty_of_whole? ha
      simp only [hempty, Bool.false_eq_true, ↓reduceIte]
      rcases Value.add_whole ha hwhole with ⟨t, he⟩ | ⟨u, hu, hsum⟩
      · refine .inl ⟨t, ?_⟩
        simp only [plus, he]
        rfl
      · refine .inr ⟨{ func, value := u, seen, memory }, ?_, .sum ?_ ?_⟩
        · simp only [plus, hu]
          rfl
        · exact List.append_ne_nil_of_left_ne_nil hne _
        · rw [List.sum_append, List.sum_singleton]
          exact hsum
  · have hn : v.isNumeric = false := Bool.not_eq_true _ ▸ hn
    refine .inr ⟨a, feed_sum_of_not_isNumeric hf hn, ?_⟩
    rw [Value.whole?_of_not_isNumeric hn, Option.toList_none, List.append_nil]
    exact ha

theorem foldlM_feed_sum (hf : a.func = .sum) (ha : a.value.IsTotal ns) {vs : List Value}
    (hvs : ∀ v ∈ vs, ∀ d, v ≠ .double d) :
    (∃ t, vs.foldlM feed a = .error (.overflow t)) ∨
      ∃ b, vs.foldlM feed a = .ok b ∧ b.value.IsTotal (ns ++ vs.filterMap Value.whole?) := by
  induction vs generalizing a ns with
  | nil =>
    refine .inr ⟨a, rfl, ?_⟩
    rw [List.filterMap_nil, List.append_nil]
    exact ha
  | cons v vs ih =>
    obtain ⟨hv, hrest⟩ := List.forall_mem_cons.1 hvs
    rw [List.foldlM_cons]
    rcases feed_sum hf ha hv with ⟨t, he⟩ | ⟨b, hb, hbt⟩
    · rw [he]
      exact .inl ⟨t, rfl⟩
    · rw [hb, Value.filterMap_whole?_cons, ← List.append_assoc]
      exact ih (feed_sum_func hf hb) hbt hrest

/-- A sum takes in the result of a part as it does the value of a row. -/
theorem foldlM_absorb_sum (hf : a.func = .sum) (ps : List Value) :
    ps.foldlM absorb a = ps.foldlM feed a := by
  induction ps generalizing a with
  | nil => rfl
  | cons p ps ih =>
    have habsorb : a.absorb p = a.feed p := by
      cases a with | mk func value seen memory =>
      obtain rfl := hf
      rfl
    rw [List.foldlM_cons, List.foldlM_cons, habsorb]
    cases hb : a.feed p with
    | error e => rfl
    | ok b => exact ih (feed_sum_func hf hb)

end Accumulator

namespace AggregateFunc

theorem ofPartials_sum (ps : List Value) : sum.ofPartials ps = sum.ofValues ps := by
  rw [ofPartials, ofValues, Accumulator.foldlM_absorb_sum rfl]

/-- A sum of values of which none is a double. -/
theorem ofValues_sum {vs : List Value} (hvs : ∀ v ∈ vs, ∀ d, v ≠ .double d) :
    (∃ t, sum.ofValues vs = .error (.overflow t)) ∨
      ∃ v : Value, sum.ofValues vs = .ok v.orNull ∧ v.IsTotal (vs.filterMap Value.whole?) := by
  have hstart : (Accumulator.ofFunc .sum).value.IsTotal [] := .nothing
  rw [ofValues]
  rcases Accumulator.foldlM_feed_sum rfl hstart hvs with ⟨t, he⟩ | ⟨b, hb, ht⟩
  · rw [he]
    exact .inl ⟨t, rfl⟩
  · rw [hb]
    exact .inr ⟨b.value, rfl, ht⟩

/-- Of parts that do not overflow the sums have the exact sum of all. -/
theorem mapM_ofValues_sum {parts : List (List Value)}
    (hparts : ∀ v ∈ parts.flatten, ∀ d, v ≠ .double d) :
    (∃ t, parts.mapM sum.ofValues = .error (.overflow t)) ∨
      ∃ ps, parts.mapM sum.ofValues = .ok ps ∧ (∀ p ∈ ps, ∀ d, p ≠ .double d) ∧
        (ps.filterMap Value.whole?).sum = (parts.flatten.filterMap Value.whole?).sum ∧
        (ps.filterMap Value.whole? = [] ↔ parts.flatten.filterMap Value.whole? = []) := by
  induction parts with
  | nil => exact .inr ⟨[], rfl, List.forall_mem_nil _, rfl, Iff.rfl⟩
  | cons vs parts ih =>
    rw [List.flatten_cons] at hparts
    obtain ⟨hvs, hrest⟩ := List.forall_mem_append.1 hparts
    rw [List.mapM_cons]
    rcases ofValues_sum hvs with ⟨t, he⟩ | ⟨v, hv, ht⟩
    · rw [he]
      exact .inl ⟨t, rfl⟩
    rcases ih hrest with ⟨t, he⟩ | ⟨ps, hps, hd, hsum, hnil⟩
    · rw [hv, he]
      exact .inl ⟨t, rfl⟩
    rw [hv, hps]
    refine .inr ⟨v.orNull :: ps, rfl, ?_, ?_, ?_⟩
    · exact List.forall_mem_cons.2 ⟨ht.orNull_ne_double, hd⟩
    · rw [Value.filterMap_whole?_cons, List.sum_append, ht.sum_whole?, hsum, List.flatten_cons,
        List.filterMap_append, List.sum_append]
    · rw [Value.filterMap_whole?_cons, List.append_eq_nil_iff, ht.whole?_eq_nil, hnil,
        List.flatten_cons, List.filterMap_append, List.append_eq_nil_iff]

/-- A sum that is had in parts is the sum of all to the order, if neither overflows. -/
theorem ofParts_sum {parts : List (List Value)}
    (hparts : ∀ v ∈ parts.flatten, ∀ d, v ≠ .double d)
    (hall : ∀ t, sum.ofValues parts.flatten ≠ .error (.overflow t))
    (hmerged : ∀ t, sum.ofParts parts ≠ .error (.overflow t)) :
    ∃ v w, sum.ofValues parts.flatten = .ok v ∧ sum.ofParts parts = .ok w ∧ v.equiv w = true := by
  obtain ⟨v, hv, hvt⟩ := (ofValues_sum hparts).resolve_left fun ⟨t, he⟩ => hall t he
  unfold ofParts at hmerged ⊢
  rcases mapM_ofValues_sum hparts with ⟨t, he⟩ | ⟨ps, hps, hd, hsum, hnil⟩
  · exact (hmerged t (by rw [he]; rfl)).elim
  have hbind : (do sum.ofPartials (← parts.mapM sum.ofValues)) = sum.ofValues ps := by
    rw [hps, ← ofPartials_sum]
    rfl
  rw [hbind] at hmerged ⊢
  obtain ⟨w, hw, hwt⟩ := (ofValues_sum hd).resolve_left fun ⟨t, he⟩ => hmerged t he
  exact ⟨v.orNull, w.orNull, hv, hw, hvt.equiv hwt hsum.symm hnil.symm⟩

/-- What is had in parts, with an accumulator for each and one that merges their results, is what
one accumulator makes of all values in their order. Counts have to fit 64 bits; a sum is the same to
the order, if there is no double among the values and neither side overflows. -/
theorem ofParts_eq_ofValues (func : AggregateFunc) (parts : List (List Value))
    (hcount : func.isCount = true → parts.flatten.countP func.counts < 2 ^ 63)
    (hsum : func = .sum → (∀ v ∈ parts.flatten, ∀ d, v ≠ .double d) ∧
      (∀ t, func.ofValues parts.flatten ≠ .error (.overflow t)) ∧
      ∀ t, func.ofParts parts ≠ .error (.overflow t)) :
    ∃ v w, func.ofValues parts.flatten = .ok v ∧ func.ofParts parts = .ok w ∧
      v.equiv w = true ∧ (func ≠ .sum → v = w) := by
  by_cases hs : func = .sum
  · subst hs
    obtain ⟨hparts, hall, hmerged⟩ := hsum rfl
    obtain ⟨v, w, hv, hw, he⟩ := ofParts_sum hparts hall hmerged
    exact ⟨v, w, hv, hw, he, fun hne => (hne rfl).elim⟩
  · obtain ⟨a, b, ha, hb, ps, hps, hfold⟩ := Accumulator.absorb_parts hs [] parts hcount
    obtain rfl : Accumulator.ofFunc func = a := Except.ok.inj ha
    refine ⟨b.result, b.result, ?_, ?_, Value.equiv_iff.2 rfl, fun _ => rfl⟩
    · rw [ofValues, hb]
      rfl
    · rw [ofParts, hps]
      change func.ofPartials ps = _
      rw [ofPartials, hfold]
      rfl

/-- A sum over three parts that is an integer when it is had in parts, and a long otherwise, and a
count over the same parts. -/
theorem ofParts_eq_ofValues_widths :
    let parts : List (List Value) :=
      [[.integer 2147483647, .null], [.text "x"], [.integer 1, .integer (-1)]]
    (∃ v w, AggregateFunc.sum.ofValues parts.flatten = .ok v ∧
      AggregateFunc.sum.ofParts parts = .ok w ∧ v.equiv w = true ∧
      v = .long 2147483647 ∧ w = .integer 2147483647) ∧
    ∃ v w, AggregateFunc.count.ofValues parts.flatten = .ok v ∧
      AggregateFunc.count.ofParts parts = .ok w ∧ v = w ∧ w = .long 4 := by
  intro parts
  have hlong : AggregateFunc.sum.ofValues parts.flatten = .ok (.long 2147483647) := rfl
  have hint : AggregateFunc.sum.ofParts parts = .ok (.integer 2147483647) := rfl
  have hfour : AggregateFunc.count.ofParts parts = .ok (.long 4) := rfl
  constructor
  · have hwhole : ∀ v ∈ parts.flatten, ∀ d, v ≠ .double d := by simp [parts]
    have hall (t : String) : AggregateFunc.sum.ofValues parts.flatten ≠ .error (.overflow t) := by
      rw [hlong]
      exact nofun
    have hmerged (t : String) : AggregateFunc.sum.ofParts parts ≠ .error (.overflow t) := by
      rw [hint]
      exact nofun
    obtain ⟨v, w, hv, hw, he, -⟩ :=
      ofParts_eq_ofValues .sum parts nofun fun _ => ⟨hwhole, hall, hmerged⟩
    refine ⟨v, w, hv, hw, he, ?_, ?_⟩
    · exact Except.ok.inj (hv.symm.trans hlong)
    · exact Except.ok.inj (hw.symm.trans hint)
  · have hbound : parts.flatten.countP AggregateFunc.count.counts < 2 ^ 63 := by decide
    obtain ⟨v, w, hv, hw, -, he⟩ := ofParts_eq_ofValues .count parts (fun _ => hbound) nofun
    refine ⟨v, w, hv, hw, he nofun, ?_⟩
    exact Except.ok.inj (hw.symm.trans hfour)

end AggregateFunc
end ShardQuery
