import Mathlib.Data.List.Induction
import ShardQuery.Proofs.Value.Tuple

/-!
The first least or greatest of some values that are not null. What is kept of a part of them stands
for all of it, and which value is kept depends on the order of the values only as far as the order
over values does not tell.
-/

namespace ShardQuery
namespace Value

/-! ## Extremes of parts -/

/-- What is kept of a value kept so far, if any, and the next one. -/
def extreme (wanted : Ordering) (best v : Value) : Value :=
  if v.isNullLike then best
  else if best.isEmpty || v.compare false best == wanted then v
  else best

/-- What an extreme is kept as: nothing yet, or a value that is not null. -/
def Kept (v : Value) : Prop := v = .empty ∨ v.isNullLike = false

section
variable {wanted : Ordering} {x y v : Value}

theorem isEmpty_of_not_isNullLike (h : v.isNullLike = false) : v.isEmpty = false := by
  cases v <;> first | rfl | cases h

theorem orNull_of_not_isNullLike (h : v.isNullLike = false) : v.orNull = v := by
  cases v <;> first | rfl | cases h

theorem extreme_of_isNullLike (h : v.isNullLike = true) : extreme wanted x v = x := if_pos h

theorem extreme_empty : extreme wanted .empty v = if v.isNullLike then .empty else v := rfl

theorem extreme_of_kept (hx : x.isNullLike = false) (hv : v.isNullLike = false) :
    extreme wanted x v = if v.compare false x = wanted then v else x := by
  simp [extreme, hv, isEmpty_of_not_isNullLike hx]

theorem Kept.extreme (hx : x.Kept) : (extreme wanted x v).Kept := by
  unfold Value.extreme
  split
  · exact hx
  · rename_i hv
    split
    · exact .inr (Bool.not_eq_true _ ▸ hv)
    · exact hx

/-- Standing in the wanted relation is transitive. -/
theorem compare_trans (hw : wanted ≠ .eq) (hvy : v.compare false y = wanted)
    (hyx : y.compare false x = wanted) : v.compare false x = wanted := by
  cases wanted with
  | lt => exact Std.TransCmp.lt_trans hvy hyx
  | eq => exact (hw rfl).elim
  | gt => exact Std.TransCmp.gt_trans hvy hyx

/-- Not standing in it is transitive, too. -/
theorem compare_ne_trans (hw : wanted ≠ .eq) (hvy : v.compare false y ≠ wanted)
    (hyx : y.compare false x ≠ wanted) : v.compare false x ≠ wanted := by
  cases wanted with
  | lt =>
    exact Ordering.isGE_iff_ne_lt.1 (Std.TransCmp.isGE_trans
      (Ordering.isGE_iff_ne_lt.2 hvy) (Ordering.isGE_iff_ne_lt.2 hyx))
  | eq => exact (hw rfl).elim
  | gt =>
    exact Ordering.isLE_iff_ne_gt.1 (Std.TransCmp.isLE_trans
      (Ordering.isLE_iff_ne_gt.2 hvy) (Ordering.isLE_iff_ne_gt.2 hyx))

/-- The next value can be compared with what is kept of a part, and that with the rest. -/
theorem extreme_assoc (hw : wanted ≠ .eq) (hx : x.Kept) (hy : y.Kept) :
    extreme wanted x (extreme wanted y v).orNull =
      extreme wanted (extreme wanted x y.orNull) v := by
  by_cases hv : v.isNullLike = true
  · rw [extreme_of_isNullLike hv, extreme_of_isNullLike hv]
  have hv : v.isNullLike = false := Bool.not_eq_true _ ▸ hv
  rcases hy with rfl | hy
  · have hn : Value.empty.orNull.isNullLike = true := rfl
    rw [extreme_empty, hv, extreme_of_isNullLike hn]
    exact congrArg _ (orNull_of_not_isNullLike hv)
  rw [orNull_of_not_isNullLike hy]
  have hvy : (extreme wanted y v).isNullLike = false := by
    rw [extreme_of_kept hy hv]
    split
    · exact hv
    · exact hy
  rw [orNull_of_not_isNullLike hvy]
  rcases hx with rfl | hx
  · rw [extreme_empty, extreme_empty, hvy, hy]
    rfl
  rw [extreme_of_kept hx hvy, extreme_of_kept hy hv, extreme_of_kept hx hy]
  by_cases hlast : v.compare false y = wanted
  · rw [if_pos hlast]
    by_cases hmid : y.compare false x = wanted
    · rw [if_pos hmid, extreme_of_kept hy hv, if_pos hlast,
        if_pos (compare_trans hw hlast hmid)]
    · rw [if_neg hmid, extreme_of_kept hx hv]
  · rw [if_neg hlast]
    by_cases hmid : y.compare false x = wanted
    · rw [if_pos hmid, extreme_of_kept hy hv, if_neg hlast]
    · rw [if_neg hmid, extreme_of_kept hx hv, if_neg (compare_ne_trans hw hlast hmid)]

theorem foldl_extreme_kept (vs : List Value) (hx : x.Kept) :
    (vs.foldl (extreme wanted) x).Kept := by
  induction vs generalizing x with
  | nil => exact hx
  | cons v vs ih => exact ih hx.extreme

/-- The extreme of a part counts as all of its values do. -/
theorem extreme_foldl (hw : wanted ≠ .eq) (hx : x.Kept) (vs : List Value) :
    extreme wanted x (vs.foldl (extreme wanted) .empty).orNull = vs.foldl (extreme wanted) x := by
  induction vs using List.reverseRecOn with
  | nil => rfl
  | append_singleton vs v ih =>
    rw [List.foldl_concat, List.foldl_concat, ← ih]
    exact extreme_assoc hw hx (foldl_extreme_kept vs (.inl rfl))

end

/-! ## Extremes in any order -/

/-- What an extreme of some values is: nothing where all are null, and else one of them that no
other one beats. -/
def IsExtreme (wanted : Ordering) (vs : List Value) (best : Value) : Prop :=
  (best = .empty ∧ ∀ v ∈ vs, v.isNullLike = true) ∨
    (best ∈ vs ∧ best.isNullLike = false ∧
      ∀ v ∈ vs, v.isNullLike = false → v.compare false best ≠ wanted)

section
variable {wanted : Ordering} {vs ws : List Value} {a b : Value}

theorem compare_self_ne (hw : wanted ≠ .eq) (v : Value) : v.compare false v ≠ wanted := by
  have hself : v.compare false v = .eq := Std.ReflCmp.compare_self
  rw [hself]
  exact hw.symm

theorem IsExtreme.concat (hw : wanted ≠ .eq) (h : IsExtreme wanted vs a) (v : Value) :
    IsExtreme wanted (vs ++ [v]) (extreme wanted a v) := by
  by_cases hv : v.isNullLike = true
  · rw [extreme_of_isNullLike hv]
    rcases h with ⟨ha, hall⟩ | ⟨ha, hnull, hall⟩
    · refine .inl ⟨ha, fun u hu => ?_⟩
      rcases List.mem_append.1 hu with hu | hu
      · exact hall u hu
      · exact List.mem_singleton.1 hu ▸ hv
    · refine .inr ⟨List.mem_append_left _ ha, hnull, fun u hu hun => ?_⟩
      rcases List.mem_append.1 hu with hu | hu
      · exact hall u hu hun
      · rw [List.mem_singleton.1 hu, hv] at hun
        cases hun
  have hv : v.isNullLike = false := Bool.not_eq_true _ ▸ hv
  have hlast : v ∈ vs ++ [v] := List.mem_append_right _ (List.mem_singleton_self v)
  rcases h with ⟨rfl, hall⟩ | ⟨ha, hnull, hall⟩
  · rw [extreme_empty, hv]
    refine .inr ⟨hlast, hv, fun u hu hun => ?_⟩
    rcases List.mem_append.1 hu with hu | hu
    · rw [hall u hu] at hun
      cases hun
    · rw [List.mem_singleton.1 hu]
      exact compare_self_ne hw v
  rw [extreme_of_kept hnull hv]
  by_cases hbeats : v.compare false a = wanted
  · rw [if_pos hbeats]
    refine .inr ⟨hlast, hv, fun u hu hun => ?_⟩
    rcases List.mem_append.1 hu with hu | hu
    · exact fun huv => hall u hu hun (compare_trans hw huv hbeats)
    · rw [List.mem_singleton.1 hu]
      exact compare_self_ne hw v
  · rw [if_neg hbeats]
    refine .inr ⟨List.mem_append_left _ ha, hnull, fun u hu hun => ?_⟩
    rcases List.mem_append.1 hu with hu | hu
    · exact hall u hu hun
    · rw [List.mem_singleton.1 hu]
      exact hbeats

theorem isExtreme_foldl (hw : wanted ≠ .eq) (vs : List Value) :
    IsExtreme wanted vs (vs.foldl (extreme wanted) .empty) := by
  induction vs using List.reverseRecOn with
  | nil => exact .inl ⟨rfl, fun v hv => nomatch hv⟩
  | append_singleton vs v ih =>
    rw [List.foldl_concat]
    exact ih.concat hw v

/-- Of two that neither beats the other the order tells nothing. -/
theorem key_eq_of_compare_ne (hw : wanted ≠ .eq) (hab : a.compare false b ≠ wanted)
    (hba : b.compare false a ≠ wanted) : a.key = b.key := by
  have hkeys : a.compare false b = .eq ↔ a.key = b.key := compare_eq_iff
  rw [← hkeys]
  have hswap : b.compare false a = (a.compare false b).swap := Std.OrientedCmp.eq_swap
  rw [hswap] at hba
  cases wanted <;> cases hcmp : a.compare false b <;> simp_all

theorem IsExtreme.equiv (hw : wanted ≠ .eq) (h : IsExtreme wanted vs a)
    (h' : IsExtreme wanted ws b) (hp : vs.Perm ws) : a.orNull.equiv b.orNull = true := by
  rw [equiv_iff]
  rcases h with ⟨rfl, hall⟩ | ⟨ha, hnull, hall⟩
  · rcases h' with ⟨rfl, -⟩ | ⟨hb, hnull', -⟩
    · rfl
    · rw [hall b (hp.mem_iff.2 hb)] at hnull'
      cases hnull'
  · rcases h' with ⟨rfl, hall'⟩ | ⟨hb, hnull', hall'⟩
    · rw [hall' a (hp.mem_iff.1 ha)] at hnull
      cases hnull
    · rw [orNull_of_not_isNullLike hnull, orNull_of_not_isNullLike hnull']
      exact key_eq_of_compare_ne hw (hall' a (hp.mem_iff.1 ha) hnull)
        (hall b (hp.mem_iff.2 hb) hnull')

end

end Value
end ShardQuery
