import ShardQuery.Proofs.Operator.Reference
import ShardQuery.Proofs.Value.Hashing

/-!
What accumulators hold. Whatever comes in, an accumulator has grown by what it said since its result
was last taken, and a collection has copies of just the values that it does not leave out. Its memory
is told by the values themselves, whose buffers may have had room to spare.
-/

namespace ShardQuery

namespace Accumulator

/-- What comes in, where it lies. -/
inductive Arrival where
  /-- The value of a row. -/
  | row (p : Placed)
  /-- A result for a part of the group. -/
  | part (p : Placed)

/-- The values that come in. Those of a merged array count one by one. -/
def Arrival.values : Arrival → List Placed
  | .row p => [p]
  | .part p => p.items?.getD [p]

/-- What comes in with a result for a part of the group are the items of an array, or else the result
itself. -/
theorem Arrival.values_part (p : Placed) :
    (∃ items, p.value = .array items ∧ (Arrival.part p).values.map Placed.value = items) ∨
      (∀ items, p.value ≠ .array items) ∧ (Arrival.part p).values = [p] := by
  rw [Arrival.values]
  cases hp : p.items? with
  | some items => exact .inl ⟨_, Placed.value_of_items? hp, rfl⟩
  | none => exact .inr ⟨Placed.value_ne_array hp, rfl⟩

/-- The values that are not empty. -/
def present (ps : List Placed) : List Placed := ps.filter (!·.value.isEmpty)

/-- The values that are not empty, each unless one before it is equal to it in the order. -/
def distinct (ps : List Placed) : List Placed := firstSeen (fun p => [p.value]) (present ps)

/-- Memory held by values where they lie. -/
def heldBy (ps : List Placed) : Nat := (ps.map Placed.size).sum

/-- Memory held by the keys of values. Each is made from a copy. -/
def keysHeldBy (ps : List Placed) : Nat := (ps.map fun p => groupSize [p.value]).sum

/-- Takes in a value or a result for a part of the group. Returns the growth in bytes. -/
def intake (a : Accumulator) : Arrival → Except QueryError (Nat × Accumulator)
  | .row p => a.aggregate p
  | .part p => a.merge p

/-- What its owner does with an accumulator. -/
inductive Dealing where
  | intake (x : Arrival)
  /-- Takes the result, after which the accumulator starts over. -/
  | takeResult

/-- An accumulator and a record of what has happened since its result was last taken. -/
structure Account where
  acc : Accumulator
  /-- The values that came in. -/
  values : List Placed := []
  /-- The growths that were returned. -/
  growths : List Nat := []

def Account.deal (t : Account) : Dealing → Account
  | .intake x =>
    match t.acc.intake x with
    | .ok (grown, acc) => ⟨acc, t.values ++ x.values, t.growths ++ [grown]⟩
    | .error _ => { t with values := t.values ++ x.values }
  | .takeResult => { acc := t.acc.rearm }

/-- What is in an accumulator that was given some values. -/
def Contains (a : Accumulator) (ps : List Placed) : Prop :=
  match a.func with
  | .collect => a.value = .array ((present ps).map Placed.value) ∧ a.memory = heldBy (present ps)
  | .collectDistinct => a.value = .array ((distinct ps).map Placed.value) ∧
      a.seen = ((distinct ps).map Placed.value).reverse ∧
      a.memory = heldBy (distinct ps) + keysHeldBy (distinct ps)
  | .countStar | .count | .countNumbers | .sum | .min | .max => a.memory = 0

/-- An accumulator that has grown by so many bytes and was given some values in all. -/
structure Grown (a : Accumulator) (ps : List Placed) (n : Nat) (b : Accumulator) : Prop where
  func : b.func = a.func
  memory : b.memory = a.memory + n
  contains : b.Contains ps

variable {a b : Accumulator} {ps qs : List Placed} {p : Placed} {n : Nat} {x : Arrival}
  {e : QueryError}

/-! ## Sizes -/

theorem sum_map_concat (f : Placed → Nat) (ps : List Placed) (p : Placed) :
    ((ps ++ [p]).map f).sum = (ps.map f).sum + f p := by
  rw [List.map_append, List.sum_append, List.map_singleton, List.sum_singleton]

theorem heldBy_concat (ps : List Placed) (p : Placed) : heldBy (ps ++ [p]) = heldBy ps + p.size :=
  sum_map_concat ..

theorem keysHeldBy_concat (ps : List Placed) (p : Placed) :
    keysHeldBy (ps ++ [p]) = keysHeldBy ps + groupSize [p.value] :=
  sum_map_concat (fun p => groupSize [p.value]) ps p

/-- Values take more than their copies, by what their buffers have to spare. -/
theorem heldBy_eq (ps : List Placed) :
    heldBy ps = sizeOfRows (ps.map Placed.value) + (ps.map Placed.spare).sum := by
  induction ps with
  | nil => rfl
  | cons p ps ih =>
    rw [heldBy] at ih ⊢
    rw [List.map_cons, List.sum_cons, ih, p.size_eq, List.map_cons, List.map_cons, List.sum_cons,
      sizeOfRows, sizeOfRows, Value.sizeItems]
    omega

/-! ## Values that are left out -/

theorem present_concat (ps : List Placed) (p : Placed) :
    present (ps ++ [p]) = if p.value.isEmpty then present ps else present ps ++ [p] := by
  rw [present, List.filter_append]
  cases hp : p.value.isEmpty <;> simp [present, hp]

theorem sameGroup_singleton (u v : Value) : sameGroup [u] [v] = u.equiv v := by
  simp [sameGroup]

theorem any_distinct (ps : List Placed) (v : Value) :
    ((distinct ps).any fun q => v.equiv q.value) = (present ps).any fun q => v.equiv q.value := by
  rw [Bool.eq_iff_iff, List.any_eq_true, List.any_eq_true]
  constructor
  · rintro ⟨q, hq, he⟩
    exact ⟨q, mem_of_firstSeen hq, he⟩
  · rintro ⟨q, hq, he⟩
    obtain ⟨r, hr, hs⟩ := exists_firstSeen (fun p : Placed => [p.value]) hq
    rw [sameGroup_singleton, Value.equiv_iff] at hs
    rw [Value.equiv_iff] at he
    exact ⟨r, hr, Value.equiv_iff.2 (he.trans hs.symm)⟩

theorem distinct_concat (ps : List Placed) (p : Placed) :
    distinct (ps ++ [p]) =
      if p.value.isEmpty || (distinct ps).any fun q => p.value.equiv q.value then distinct ps
      else distinct ps ++ [p] := by
  rw [any_distinct, distinct, present_concat]
  cases p.value.isEmpty with
  | true => rfl
  | false =>
    have hseen : ((present ps).any fun q => sameGroup [q.value] [p.value]) =
        (present ps).any fun q => p.value.equiv q.value := by
      congr 1
      funext q
      rw [sameGroup_singleton, Bool.eq_iff_iff, Value.equiv_iff, Value.equiv_iff, eq_comm]
    rw [if_neg Bool.false_ne_true, firstSeen_concat, hseen, Bool.false_or]
    rfl

theorem pairwise_distinct (ps : List Placed) :
    ((distinct ps).map Placed.value).Pairwise fun u v => u.compare false v ≠ .eq := by
  refine List.pairwise_map.2 ((firstSeen_pairwise _).imp fun {p q} h he => ?_)
  rw [sameGroup_singleton, Value.equiv, he] at h
  cases h

/-- To look for an equal value, it is enough to go through those with the same encoding. -/
theorem any_equiv_eq (vs : List Value) (v : Value) :
    vs.any v.equiv = vs.any fun u => u.keyBytes == v.keyBytes && v.equiv u := by
  congr 1
  funext u
  cases he : v.equiv u with
  | false => rw [Bool.and_false]
  | true => rw [Value.keyBytes_congr (Value.equiv_iff.1 he), beq_self_eq_true, Bool.and_true]

/-! ## One value -/

/-- Where nothing is collected, nothing grows. -/
theorem plus_idle {v : Value} (h : (a.plus v).map ((0 : Nat), ·) = .ok (n, b)) :
    n = 0 ∧ b.func = a.func ∧ b.memory = a.memory := by
  unfold plus at h
  cases hadd : ArithOp.add.apply a.value v with
  | error e =>
    rw [hadd] at h
    cases h
  | ok u =>
    rw [hadd] at h
    cases h
    exact ⟨rfl, rfl, rfl⟩

theorem keepExtreme_idle {wanted : Ordering} {v : Value}
    (h : Except.ok (0, a.keepExtreme wanted v) = (.ok (n, b) : Except QueryError _)) :
    n = 0 ∧ b.func = a.func ∧ b.memory = a.memory := by
  rw [keepExtreme_eq] at h
  cases h
  exact ⟨rfl, rfl, rfl⟩

theorem aggregate_idle (hf : a.func.collects = false) (h : a.aggregate p = .ok (n, b)) :
    n = 0 ∧ b.func = a.func ∧ b.memory = a.memory := by
  cases a with | mk func value seen memory =>
  cases func with
  | collect | collectDistinct => cases hf
  | countStar => exact plus_idle h
  | min | max => exact keepExtreme_idle h
  | count | countNumbers =>
    simp only [aggregate] at h
    split at h <;> first
      | exact plus_idle h
      | (cases h; exact ⟨rfl, rfl, rfl⟩)
  | sum =>
    simp only [aggregate] at h
    split at h
    · cases h
      exact ⟨rfl, rfl, rfl⟩
    · split at h
      · cases h
        exact ⟨rfl, rfl, rfl⟩
      · exact plus_idle h

theorem contains_idle (hf : a.func.collects = false) (ps : List Placed) :
    a.Contains ps ↔ a.memory = 0 := by
  cases a with | mk func value seen memory =>
  cases func with
  | collect | collectDistinct => cases hf
  | countStar | count | countNumbers | sum | min | max => exact Iff.rfl

/-- What stays as it is has not grown, if it collects nothing. -/
theorem Contains.idle (h : a.Contains ps) (hf : a.func.collects = false)
    (hb : n = 0 ∧ b.func = a.func ∧ b.memory = a.memory) (qs : List Placed) : Grown a qs n b := by
  obtain ⟨rfl, hfunc, hmemory⟩ := hb
  refine ⟨hfunc, hmemory, ?_⟩
  rw [contains_idle (hfunc ▸ hf), hmemory]
  exact (contains_idle hf ps).1 h

theorem Contains.collect (h : a.Contains ps) (hf : a.func = .collect) (p : Placed) :
    Grown a (ps ++ [p]) (a.collect p).1 (a.collect p).2 := by
  cases a with | mk func value seen memory =>
  obtain rfl := hf
  obtain ⟨hvalue, hmemory⟩ := h
  unfold Accumulator.collect
  cases hp : p.value.isEmpty with
  | true =>
    rw [if_pos rfl]
    refine ⟨rfl, rfl, ?_⟩
    rw [Contains, present_concat, if_pos hp]
    exact ⟨hvalue, hmemory⟩
  | false =>
    rw [if_neg Bool.false_ne_true]
    refine ⟨rfl, rfl, ?_⟩
    simp only [Contains, present_concat, hp, Bool.false_eq_true, ↓reduceIte, heldBy_concat]
    refine ⟨?_, ?_⟩
    · rw [show value = _ from hvalue, List.map_append]
      rfl
    · rw [show memory = _ from hmemory]

theorem Contains.collectDistinct (h : a.Contains ps) (hf : a.func = .collectDistinct) (p : Placed) :
    Grown a (ps ++ [p]) (a.collectDistinct p).1 (a.collectDistinct p).2 := by
  cases a with | mk func value seen memory =>
  obtain rfl := hf
  obtain ⟨hvalue, hseen, hmemory⟩ := h
  have hany : seen.any p.value.equiv = (distinct ps).any fun q => p.value.equiv q.value := by
    rw [show seen = _ from hseen, List.any_reverse, List.any_map]
    rfl
  unfold Accumulator.collectDistinct
  cases hs : p.value.isEmpty || seen.any p.value.equiv with
  | true =>
    rw [if_pos rfl]
    refine ⟨rfl, rfl, ?_⟩
    rw [hany] at hs
    rw [Contains, distinct_concat, if_pos hs]
    exact ⟨hvalue, hseen, hmemory⟩
  | false =>
    rw [if_neg Bool.false_ne_true]
    refine ⟨rfl, rfl, ?_⟩
    rw [hany] at hs
    simp only [Contains, distinct_concat, hs, Bool.false_eq_true, ↓reduceIte, heldBy_concat,
      keysHeldBy_concat]
    refine ⟨?_, ?_, ?_⟩
    · rw [show value = _ from hvalue, List.map_append]
      rfl
    · rw [List.map_append, List.map_singleton, List.reverse_concat, show seen = _ from hseen]
    · rw [show memory = _ from hmemory]
      omega

theorem Contains.aggregate (h : a.Contains ps) (ha : a.aggregate p = .ok (n, b)) :
    Grown a (ps ++ [p]) n b := by
  by_cases hf : a.func.collects = false
  · exact h.idle hf (aggregate_idle hf ha) _
  · cases hfunc : a.func with
    | countStar | count | countNumbers | sum | min | max =>
      rw [hfunc] at hf
      exact (hf rfl).elim
    | collect =>
      simp only [Accumulator.aggregate, hfunc] at ha
      obtain ⟨rfl, rfl⟩ := Prod.ext_iff.1 (Except.ok.inj ha)
      exact h.collect hfunc p
    | collectDistinct =>
      simp only [Accumulator.aggregate, hfunc] at ha
      obtain ⟨rfl, rfl⟩ := Prod.ext_iff.1 (Except.ok.inj ha)
      exact h.collectDistinct hfunc p

/-! ## Several values -/

theorem Contains.aggregateAll (h : a.Contains ps) (ha : a.aggregateAll qs = .ok (n, b)) :
    Grown a (ps ++ qs) n b := by
  induction qs generalizing a ps n b with
  | nil =>
    cases ha
    exact ⟨rfl, rfl, by rwa [List.append_nil]⟩
  | cons q qs ih =>
    rw [Accumulator.aggregateAll] at ha
    cases hq : a.aggregate q with
    | error e =>
      rw [hq] at ha
      cases ha
    | ok r =>
      have hfirst := h.aggregate hq
      rw [hq] at ha
      change (r.2.aggregateAll qs >>= _) = _ at ha
      cases hqs : r.2.aggregateAll qs with
      | error e =>
        rw [hqs] at ha
        cases ha
      | ok s =>
        have hrest := ih hfirst.contains hqs
        rw [hqs] at ha
        cases ha
        refine ⟨hrest.func.trans hfirst.func, ?_, ?_⟩
        · rw [hrest.memory, hfirst.memory, Nat.add_assoc]
        · have := hrest.contains
          rwa [List.append_assoc] at this

theorem merge_idle (hf : a.func.collects = false) (h : a.merge p = .ok (n, b)) :
    n = 0 ∧ b.func = a.func ∧ b.memory = a.memory := by
  cases a with | mk func value seen memory =>
  cases func with
  | collect | collectDistinct => cases hf
  | sum | min | max => exact aggregate_idle hf h
  | countStar | count | countNumbers =>
    simp only [merge] at h
    split at h
    · exact plus_idle h
    · cases h
      exact ⟨rfl, rfl, rfl⟩

/-- A collection takes in the items of an array, and what is no array as the value of a row. -/
theorem merge_of_collects (hf : a.func.collects = true) (p : Placed) :
    (∃ items, p.items? = some items ∧ a.merge p = a.aggregateAll items) ∨
      p.items? = none ∧ a.merge p = a.aggregate p := by
  cases a with | mk func value seen memory =>
  cases func with
  | countStar | count | countNumbers | sum | min | max => cases hf
  | collect | collectDistinct =>
    simp only [merge]
    cases hp : p.items? with
    | some items => exact .inl ⟨items, rfl, rfl⟩
    | none => exact .inr ⟨rfl, rfl⟩

theorem Contains.intake (h : a.Contains ps) (ha : a.intake x = .ok (n, b)) :
    Grown a (ps ++ x.values) n b := by
  cases x with
  | row p => exact h.aggregate ha
  | part p =>
    change a.merge p = _ at ha
    by_cases hf : a.func.collects = true
    · rw [Arrival.values]
      obtain ⟨items, hp, hm⟩ | ⟨hp, hm⟩ := merge_of_collects hf p
      · rw [hp]
        exact h.aggregateAll (hm ▸ ha)
      · rw [hp]
        exact h.aggregate (hm ▸ ha)
    · have hf : a.func.collects = false := Bool.not_eq_true _ ▸ hf
      exact h.idle hf (merge_idle hf ha) _

/-- Collections refuse nothing. -/
theorem aggregate_ne_error (hf : a.func.collects = true) (p : Placed) : a.aggregate p ≠ .error e := by
  intro he
  cases a with | mk func value seen memory =>
  cases func with
  | countStar | count | countNumbers | sum | min | max => cases hf
  | collect | collectDistinct => cases he

theorem Contains.aggregateAll_ne_error (h : a.Contains ps) (hf : a.func.collects = true)
    (qs : List Placed) : a.aggregateAll qs ≠ .error e := by
  intro he
  induction qs generalizing a ps with
  | nil => cases he
  | cons q qs ih =>
    rw [Accumulator.aggregateAll] at he
    cases hq : a.aggregate q with
    | error e => exact aggregate_ne_error hf q hq
    | ok r =>
      have hfirst := h.aggregate hq
      rw [hq] at he
      change (r.2.aggregateAll qs >>= _) = _ at he
      cases hqs : r.2.aggregateAll qs with
      | error e' =>
        rw [hqs] at he
        cases he
        exact ih hfirst.contains (hfirst.func ▸ hf) hqs
      | ok s =>
        rw [hqs] at he
        cases he

theorem Contains.not_collects_of_refused (h : a.Contains ps) (he : a.intake x = .error e) :
    a.func.collects = false := by
  by_contra hf
  have hf : a.func.collects = true := Bool.not_eq_false _ ▸ hf
  cases x with
  | row p => exact aggregate_ne_error hf p he
  | part p =>
    change a.merge p = _ at he
    obtain ⟨items, -, hm⟩ | ⟨-, hm⟩ := merge_of_collects hf p
    · exact h.aggregateAll_ne_error hf items (hm ▸ he)
    · exact aggregate_ne_error hf p (hm ▸ he)

/-! ## All dealings -/

namespace Account
variable {f : AggregateFunc} {t : Account}

/-- The record of an accumulator is right. -/
structure Balanced (f : AggregateFunc) (t : Account) : Prop where
  func : t.acc.func = f
  memory : t.acc.memory = t.growths.sum
  contains : t.acc.Contains t.values

theorem balanced_new (f : AggregateFunc) : Balanced f { acc := .ofFunc f } := by
  refine ⟨rfl, ?_, ?_⟩
  · cases f <;> rfl
  · cases f with
    | collect => exact ⟨rfl, rfl⟩
    | collectDistinct => exact ⟨rfl, rfl, rfl⟩
    | countStar | count | countNumbers | sum | min | max => exact rfl

theorem Balanced.deal (h : t.Balanced f) (d : Dealing) : (t.deal d).Balanced f := by
  cases d with
  | takeResult =>
    have hnew := balanced_new f
    rw [← h.func] at hnew ⊢
    exact hnew
  | intake x =>
    cases hx : t.acc.intake x with
    | ok r =>
      have hgrown := h.contains.intake hx
      simp only [Account.deal, hx]
      refine ⟨hgrown.func.trans h.func, ?_, hgrown.contains⟩
      rw [hgrown.memory, h.memory, List.sum_append, List.sum_singleton]
    | error e =>
      have hf := h.contains.not_collects_of_refused hx
      simp only [Account.deal, hx]
      refine ⟨h.func, h.memory, ?_⟩
      rw [contains_idle hf]
      exact (contains_idle hf _).1 h.contains

theorem balanced_foldl (f : AggregateFunc) (dealings : List Dealing) :
    (dealings.foldl deal { acc := .ofFunc f }).Balanced f := by
  induction dealings using List.reverseRecOn with
  | nil => exact balanced_new f
  | append_singleton dealings d ih =>
    rw [List.foldl_concat]
    exact ih.deal d

/-- The copy of a text with six bytes to spare takes six bytes less than what it is charged with. -/
example :
    ((Accumulator.ofFunc .collect).merge (.array [.text "ab" 6])).toOption.map (·.1) = some 40 ∧
      Value.size (.text "ab") = 34 := by
  decide

end Account
end Accumulator
end ShardQuery
