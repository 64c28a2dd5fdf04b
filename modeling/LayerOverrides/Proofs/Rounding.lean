import LayerOverrides.Binary64.Scaled
import Mathlib.Data.Nat.Log
import Mathlib.Tactic.Ring
import Mathlib.Tactic.SplitIfs

/-!
# Rounding to nearest

Rounding never turns the order of two quotients round (`nearest_mono`), and it gives a number
back for its own value (`nearest_units`).  So products and quotients of numbers go with the order
of the numbers, and division by a power of ten makes none greater (`scaledMagnitude_negSucc_le`).
-/

namespace LayerOverrides.Binary64

def unitScale : Nat := 1074

/-- How many of the steps between the least numbers make one. -/
def unitsOfOne : Nat := 2 ^ unitScale

theorem unitsOfOne_pos : 0 < unitsOfOne := Nat.two_pow_pos unitScale

/-! ## Quotients -/

theorem le_roundedQuotient (n d : Nat) : n / d ≤ roundedQuotient n d := by
  unfold roundedQuotient
  simp only
  split_ifs <;> omega

theorem roundedQuotient_le (n d : Nat) : roundedQuotient n d ≤ n / d + 1 := by
  unfold roundedQuotient
  simp only
  split_ifs <;> omega

theorem roundedQuotient_mul_left {d : Nat} (hd : 0 < d) (q : Nat) :
    roundedQuotient (q * d) d = q := by
  unfold roundedQuotient
  simp only [Nat.mul_div_cancel q hd, Nat.mul_mod_left]
  rw [if_pos (by omega)]

theorem roundedQuotient_mono {n d n' d' : Nat} (hd : 0 < d) (hd' : 0 < d')
    (h : n * d' ≤ n' * d) : roundedQuotient n d ≤ roundedQuotient n' d' := by
  have hq : n / d ≤ n' / d' := by
    rw [Nat.le_div_iff_mul_le hd']
    refine Nat.le_of_mul_le_mul_right ?_ hd
    calc n / d * d' * d = n / d * d * d' := by ring
      _ ≤ n * d' := Nat.mul_le_mul_right d' (Nat.div_mul_le_self n d)
      _ ≤ n' * d := h
  rcases Nat.lt_or_eq_of_le hq with hlt | heq
  · calc roundedQuotient n d ≤ n / d + 1 := roundedQuotient_le n d
      _ ≤ n' / d' := hlt
      _ ≤ roundedQuotient n' d' := le_roundedQuotient n' d'
  · -- with the same whole part, the remainders compare as the quotients do
    have hr : n % d * d' ≤ n' % d' * d := by
      have hn : n * d' = n / d * (d * d') + n % d * d' := by
        conv_lhs => rw [← Nat.div_add_mod n d]
        ring
      have hn' : n' * d = n / d * (d * d') + n' % d' * d := by
        conv_lhs => rw [← Nat.div_add_mod n' d', ← heq]
        ring
      omega
    have hhalf : 2 * (n' % d') < d' → 2 * (n % d) < d := by
      intro hlt
      refine Nat.lt_of_mul_lt_mul_right (a := d') ?_
      calc 2 * (n % d) * d' = 2 * (n % d * d') := by ring
        _ ≤ 2 * (n' % d' * d) := Nat.mul_le_mul_left 2 hr
        _ = 2 * (n' % d') * d := by ring
        _ < d' * d := Nat.mul_lt_mul_of_pos_right hlt hd
        _ = d * d' := by ring
    have hties : 2 * (n' % d') ≤ d' → 2 * (n % d) ≤ d := by
      intro hle
      refine Nat.le_of_mul_le_mul_right ?_ hd'
      calc 2 * (n % d) * d' = 2 * (n % d * d') := by ring
        _ ≤ 2 * (n' % d' * d) := Nat.mul_le_mul_left 2 hr
        _ = 2 * (n' % d') * d := by ring
        _ ≤ d' * d := Nat.mul_le_mul_right d hle
        _ = d * d' := by ring
    unfold roundedQuotient
    simp only [heq]
    split_ifs <;> omega

/-! ## Nearest numbers -/

/-- The exponent of the gap between the numbers around `n / d`. -/
def gapScale (n d : Nat) : Nat := (n * unitsOfOne / d).log2 - 52

theorem nearest_eq (n d : Nat) : nearest n d = gapScale n d * hiddenBit +
    roundedQuotient (n * unitsOfOne) (d * 2 ^ gapScale n d) := by
  have hone : Nat.pow 2 1074 = unitsOfOne := by
    rw [show 1074 = unitScale from rfl, Nat.pow_eq, unitsOfOne]
  simp only [nearest, gapScale, hone, Nat.pow_eq]

/-- In the gap's units the rounded quotient has at most as many digits as a significand, and no
less but in the lowest range. -/
theorem gapScale_bounds (n d : Nat) :
    roundedQuotient (n * unitsOfOne) (d * 2 ^ gapScale n d) ≤ 2 * hiddenBit ∧
      (0 < gapScale n d →
        hiddenBit ≤ roundedQuotient (n * unitsOfOne) (d * 2 ^ gapScale n d)) := by
  have hquotient : n * unitsOfOne / (d * 2 ^ gapScale n d) =
      n * unitsOfOne / d / 2 ^ gapScale n d := (Nat.div_div_eq_div_mul _ _ _).symm
  have hgap : gapScale n d = (n * unitsOfOne / d).log2 - 52 := rfl
  generalize n * unitsOfOne / d = q at hquotient hgap
  generalize gapScale n d = s at hquotient hgap ⊢
  refine ⟨?_, fun hs => ?_⟩
  · have hlt : q / 2 ^ s < 2 * hiddenBit := by
      rw [Nat.div_lt_iff_lt_mul (Nat.two_pow_pos s)]
      calc q < 2 ^ (q.log2 + 1) := Nat.lt_log2_self
        _ ≤ 2 ^ (53 + s) := Nat.pow_le_pow_right (by decide) (by omega)
        _ = 2 * hiddenBit * 2 ^ s := by rw [Nat.pow_add]; rfl
    calc roundedQuotient (n * unitsOfOne) (d * 2 ^ s)
        ≤ n * unitsOfOne / (d * 2 ^ s) + 1 := roundedQuotient_le _ _
      _ ≤ 2 * hiddenBit := by rw [hquotient]; exact hlt
  · have hq : q ≠ 0 := by
      rintro rfl
      simp at hgap
      omega
    have hle : hiddenBit ≤ q / 2 ^ s := by
      rw [Nat.le_div_iff_mul_le (Nat.two_pow_pos s)]
      calc hiddenBit * 2 ^ s = 2 ^ (52 + s) := by rw [Nat.pow_add]; rfl
        _ ≤ 2 ^ q.log2 := Nat.pow_le_pow_right (by decide) (by omega)
        _ ≤ q := Nat.log2_self_le hq
    calc hiddenBit ≤ n * unitsOfOne / (d * 2 ^ s) := by rw [hquotient]; exact hle
      _ ≤ _ := le_roundedQuotient _ _

theorem gapScale_mono {n d n' d' : Nat} (hd : 0 < d) (hd' : 0 < d') (h : n * d' ≤ n' * d) :
    gapScale n d ≤ gapScale n' d' := by
  have hq : n * unitsOfOne / d ≤ n' * unitsOfOne / d' := by
    rw [Nat.le_div_iff_mul_le hd']
    refine Nat.le_of_mul_le_mul_right ?_ hd
    calc n * unitsOfOne / d * d' * d = n * unitsOfOne / d * d * d' := by ring
      _ ≤ n * unitsOfOne * d' := Nat.mul_le_mul_right d' (Nat.div_mul_le_self _ d)
      _ = n * d' * unitsOfOne := by ring
      _ ≤ n' * d * unitsOfOne := Nat.mul_le_mul_right _ h
      _ = n' * unitsOfOne * d := by ring
  rw [gapScale, gapScale, Nat.log2_eq_log_two, Nat.log2_eq_log_two]
  exact Nat.sub_le_sub_right (Nat.log_mono_right hq) 52

/-- Of two quotients, the greater one has no lesser nearest number. -/
theorem nearest_mono {n d n' d' : Nat} (hd : 0 < d) (hd' : 0 < d') (h : n * d' ≤ n' * d) :
    nearest n d ≤ nearest n' d' := by
  rw [nearest_eq, nearest_eq]
  rcases Nat.lt_or_eq_of_le (gapScale_mono hd hd' h) with hlt | heq
  · have hupper := (gapScale_bounds n d).1
    have hlower := (gapScale_bounds n' d').2 (by omega)
    have hscale : (gapScale n d + 1) * hiddenBit ≤ gapScale n' d' * hiddenBit :=
      Nat.mul_le_mul_right _ hlt
    rw [Nat.add_mul, Nat.one_mul] at hscale
    omega
  · rw [heq]
    refine Nat.add_le_add_left (roundedQuotient_mono ?_ ?_ ?_) _
    · exact Nat.mul_pos hd (Nat.two_pow_pos _)
    · exact Nat.mul_pos hd' (Nat.two_pow_pos _)
    · calc n * unitsOfOne * (d' * 2 ^ gapScale n' d')
          = n * d' * (unitsOfOne * 2 ^ gapScale n' d') := by ring
        _ ≤ n' * d * (unitsOfOne * 2 ^ gapScale n' d') := Nat.mul_le_mul_right _ h
        _ = n' * unitsOfOne * (d * 2 ^ gapScale n' d') := by ring

/-! ## Numbers as quotients -/

/-- The absolute value of a number in units of `2 ^ -1074`. -/
def units (magnitude : Nat) : Nat := significand magnitude * 2 ^ scale magnitude

theorem significand_lt (magnitude : Nat) : significand magnitude < 2 * hiddenBit := by
  unfold significand
  have := Nat.mod_lt magnitude (show 0 < hiddenBit by decide)
  split_ifs <;> omega

/-- A number is the nearest one to its value. -/
theorem nearest_units (magnitude : Nat) : nearest (units magnitude) unitsOfOne = magnitude := by
  have hdiv : units magnitude * unitsOfOne / unitsOfOne = units magnitude :=
    Nat.mul_div_cancel _ unitsOfOne_pos
  have hgap : gapScale (units magnitude) unitsOfOne = scale magnitude := by
    rw [gapScale, hdiv, units]
    by_cases hlow : magnitude < hiddenBit
    · have hscale : scale magnitude = 0 := by
        rw [scale, Nat.div_eq_of_lt hlow]
      rw [hscale, Nat.pow_zero, Nat.mul_one, significand, if_pos hlow]
      by_cases hzero : magnitude = 0
      · simp [hzero]
      · have hlog : magnitude.log2 < 52 := (Nat.log2_lt hzero).2 hlow
        omega
    · have hle : hiddenBit ≤ significand magnitude := by
        rw [significand, if_neg hlow]
        omega
      have hlt := significand_lt magnitude
      have hpos : 0 < 2 ^ scale magnitude := Nat.two_pow_pos _
      have hne : significand magnitude * 2 ^ scale magnitude ≠ 0 :=
        (Nat.mul_pos (Nat.lt_of_lt_of_le (by decide) hle) hpos).ne'
      have hlog : (significand magnitude * 2 ^ scale magnitude).log2 = 52 + scale magnitude := by
        refine (Nat.log2_eq_iff hne).2 ⟨?_, ?_⟩
        · rw [Nat.pow_add]
          exact Nat.mul_le_mul_right _ hle
        · rw [Nat.add_right_comm, Nat.pow_add]
          exact Nat.mul_lt_mul_of_pos_right hlt hpos
      omega
  have hunits : units magnitude * unitsOfOne =
      significand magnitude * (unitsOfOne * 2 ^ scale magnitude) := by
    rw [units]
    ring
  rw [nearest_eq, hgap, hunits, roundedQuotient_mul_left
    (Nat.mul_pos unitsOfOne_pos (Nat.two_pow_pos _))]
  unfold significand scale
  have hmod := Nat.div_add_mod magnitude hiddenBit
  split_ifs with hlow
  · rw [Nat.div_eq_of_lt hlow]
    omega
  · have hone : 1 ≤ magnitude / hiddenBit :=
      (Nat.one_le_div_iff (by decide)).2 (Nat.not_lt.1 hlow)
    rw [Nat.sub_mul, Nat.one_mul, Nat.mul_comm]
    have hle : hiddenBit ≤ hiddenBit * (magnitude / hiddenBit) := Nat.le_mul_of_pos_right _ hone
    omega

theorem units_mono {a b : Nat} (h : a ≤ b) : units a ≤ units b := by
  by_contra hlt
  have hle : nearest (units b) unitsOfOne ≤ nearest (units a) unitsOfOne :=
    nearest_mono unitsOfOne_pos unitsOfOne_pos
      (Nat.mul_le_mul_right _ (Nat.le_of_not_le hlt))
  rw [nearest_units, nearest_units] at hle
  exact hlt (Nat.le_antisymm h hle ▸ Nat.le_refl _)

theorem times_eq (a b : Nat) :
    times a b = nearest (units a * units b) (unitsOfOne * unitsOfOne) := by
  have hone : Nat.pow 2 2148 = unitsOfOne * unitsOfOne := by
    rw [show 2148 = unitScale + unitScale from rfl, Nat.pow_eq, Nat.pow_add, unitsOfOne]
  have hunits : significand a * significand b * Nat.pow 2 (scale a + scale b) =
      units a * units b := by
    rw [Nat.pow_eq, Nat.pow_add, units, units]
    ring
  rw [times, hone, hunits]

theorem times_mono {a a' b b' : Nat} (ha : a ≤ a') (hb : b ≤ b') : times a b ≤ times a' b' := by
  rw [times_eq, times_eq]
  have hpos := Nat.mul_pos unitsOfOne_pos unitsOfOne_pos
  refine nearest_mono hpos hpos (Nat.mul_le_mul_right _ ?_)
  exact Nat.mul_le_mul (units_mono ha) (units_mono hb)

theorem dividedBy_eq (a b : Nat) : dividedBy a b = nearest (units a) (units b) := rfl

/-- Division by one or more makes no number greater. -/
theorem dividedBy_le (a : Nat) {b : Nat} (h : unitsOfOne ≤ units b) : dividedBy a b ≤ a := by
  have hpos : 0 < units b := Nat.lt_of_lt_of_le unitsOfOne_pos h
  calc dividedBy a b = nearest (units a) (units b) := dividedBy_eq a b
    _ ≤ nearest (units a) unitsOfOne :=
      nearest_mono hpos unitsOfOne_pos (Nat.mul_le_mul_left _ h)
    _ = a := nearest_units a

/-! ## Powers of ten -/

theorem powerOfTen_mono {j k : Nat} (h : j ≤ k) : powerOfTen j ≤ powerOfTen k :=
  nearest_mono (by decide) (by decide) (Nat.mul_le_mul_right _ (Nat.pow_le_pow_right (by decide) h))

theorem one_le_powerOfTen (k : Nat) : unitsOfOne ≤ units (powerOfTen k) := by
  have hone : units (powerOfTen 0) = unitsOfOne := by decide +kernel
  rw [← hone]
  exact units_mono (powerOfTen_mono (Nat.zero_le k))

theorem scaledDown_le : ∀ (steps magnitude k : Nat), scaledDown steps magnitude k ≤ magnitude
  | 0, _, _ => Nat.le_refl _
  | steps + 1, magnitude, k => by
    unfold scaledDown
    split_ifs
    · exact dividedBy_le magnitude (one_le_powerOfTen k)
    · exact Nat.zero_le _
    · exact (scaledDown_le steps _ _).trans (dividedBy_le magnitude (one_le_powerOfTen _))

theorem scaledMagnitude_negSucc_le (digits k : Nat) :
    scaledMagnitude digits (.negSucc k) ≤ nearest digits 1 := scaledDown_le _ _ _

theorem scaledMagnitude_ofNat_mono {digits digits' j k : Nat} (h : digits ≤ digits') (hjk : j ≤ k)
    (hk : k ≤ greatestPower) :
    scaledMagnitude digits (.ofNat j) ≤ scaledMagnitude digits' (.ofNat k) := by
  rw [scaledMagnitude, scaledMagnitude, if_pos (hjk.trans hk), if_pos hk]
  exact times_mono (nearest_mono (by decide) (by decide) (Nat.mul_le_mul_right _ h))
    (powerOfTen_mono hjk)

/-- A number of 64 bits is finite, and so it is when it is scaled down. -/
theorem scaledMagnitude_negSucc_lt {digits : Nat} (h : digits < 2 ^ 64) (k : Nat) :
    scaledMagnitude digits (.negSucc k) < infinite := by
  have hbound : nearest (2 ^ 64) 1 < infinite := by decide +kernel
  calc scaledMagnitude digits (.negSucc k) ≤ nearest digits 1 := scaledMagnitude_negSucc_le digits k
    _ ≤ nearest (2 ^ 64) 1 := nearest_mono (by decide) (by decide) (Nat.mul_le_mul_right _ h.le)
    _ < infinite := hbound

end LayerOverrides.Binary64
