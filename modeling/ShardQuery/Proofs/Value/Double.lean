import ShardQuery.Value.Double

/-!
A double is known by its place in the numeric order, up to the sign of zero and the payload of a
NaN: the bits can be read back from the place.
-/

namespace ShardQuery.Double
variable (d : Double)

theorem fraction_lt : d.fraction < 2 ^ 52 := Nat.mod_lt _ (by decide)

theorem exponent_lt : d.exponent < 2 ^ 11 := Nat.mod_lt _ (by decide)

/-- Sign, exponent and fraction are all there is. -/
theorem bits_eq :
    d.bits.toNat = (if d.negative then 2 ^ 63 else 0) + (d.exponent * 2 ^ 52 + d.fraction) := by
  have := d.bits.toNat_lt
  simp only [negative, exponent, fraction, decide_eq_true_eq]
  split <;> omega

/-- The exponent and the fraction of a magnitude, as one number. -/
def magnitudeBits (m : Nat) : Nat := (m.log2 - 52) * 2 ^ 52 + m / 2 ^ (m.log2 - 52)

theorem magnitudeBits_magnitude :
    magnitudeBits d.magnitude = d.exponent * 2 ^ 52 + d.fraction := by
  have hf := d.fraction_lt
  unfold magnitude
  split
  · rename_i he
    have hl : d.fraction.log2 - 52 = 0 := by
      by_cases h0 : d.fraction = 0
      · rw [h0]
        rfl
      · have := (Nat.log2_lt h0).2 hf
        omega
    simp [magnitudeBits, hl, he]
  · rename_i he
    obtain ⟨e, hs⟩ : ∃ e, d.exponent = e + 1 := ⟨d.exponent - 1, by omega⟩
    have hp : 0 < 2 ^ e := Nat.two_pow_pos e
    have hl : ((2 ^ 52 + d.fraction) * 2 ^ e).log2 = 52 + e := by
      refine (Nat.log2_eq_iff (Nat.mul_ne_zero (by omega) (by omega))).2 ⟨?_, ?_⟩
      · rw [Nat.pow_add]
        exact Nat.mul_le_mul_right _ (by omega)
      · have h53 : 2 ^ (52 + e + 1) = 2 ^ 53 * 2 ^ e := by
          rw [← Nat.pow_add]
          congr 1
          omega
        rw [h53]
        exact Nat.mul_lt_mul_of_pos_right (by omega) hp
    rw [hs, Nat.add_sub_cancel, magnitudeBits, hl, Nat.add_sub_cancel_left,
      Nat.mul_div_cancel _ hp]
    omega

theorem two_pow_mul_le {a b n : Nat} (h : a + b ≤ n) : 2 ^ a * 2 ^ b ≤ 2 ^ n := by
  rw [← Nat.pow_add]
  exact Nat.pow_le_pow_right Nat.two_pos h

/-- Only a NaN is past infinity. -/
theorem magnitude_le (h : d.isNaN = false) : d.magnitude ≤ 2 ^ 2098 := by
  have hf := d.fraction_lt
  have he := d.exponent_lt
  unfold magnitude
  split
  · calc d.fraction ≤ 2 ^ 52 := Nat.le_of_lt hf
      _ ≤ 2 ^ 2098 := Nat.pow_le_pow_right Nat.two_pos (by decide)
  · by_cases hi : d.exponent = 2047
    · have h0 : d.fraction = 0 := by simpa [isNaN, hi] using h
      rw [h0, Nat.add_zero]
      exact two_pow_mul_le (a := 52) (b := d.exponent - 1) (n := 2098) (by omega)
    · have hm : 2 ^ 52 + d.fraction ≤ 2 ^ 53 := by omega
      exact Nat.le_trans (Nat.mul_le_mul_right _ hm)
        (two_pow_mul_le (a := 53) (b := d.exponent - 1) (n := 2098) (by omega))

/-- The bits of the double with a place in the numeric order. -/
def bitsAt (rank : Int) : Nat :=
  if rank = 2 ^ 2098 + 1 then nan.bits.toNat
  else (if rank < 0 then 2 ^ 63 else 0) + magnitudeBits rank.natAbs

theorem bitsAt_rank (h : d.rank ≠ 0) : bitsAt d.rank = d.canonical.bits.toNat := by
  unfold bitsAt canonical
  cases hn : d.isNaN with
  | true => simp only [rank, hn, ↓reduceIte]
  | false =>
    have hm := d.magnitude_le hn
    have hr : d.rank = if d.negative then -(d.magnitude : Int) else d.magnitude := by
      simp [rank, hn]
    have hne : d.rank ≠ 2 ^ 2098 + 1 := by
      rw [hr]
      split <;> omega
    have habs : d.rank.natAbs = d.magnitude := by
      rw [hr]
      split <;> omega
    have hneg : (d.rank < 0) = (d.negative = true) := by
      rw [hr] at h ⊢
      split at h <;> rename_i hs <;>
        simp only [hs, ↓reduceIte, Bool.false_eq_true, eq_iff_iff, iff_true, iff_false] <;> omega
    simp only [hne, ↓reduceIte, habs, hneg, d.magnitudeBits_magnitude, Bool.false_eq_true]
    exact d.bits_eq.symm

/-- A zero is a long. -/
theorem isLong_of_rank (h : d.rank = 0) : d.rest = 0 ∧ -2 ^ 63 ≤ d.whole ∧ d.whole < 2 ^ 63 := by
  rw [rest, whole, h, Int.zero_ediv, Int.zero_emod]
  decide

end ShardQuery.Double
