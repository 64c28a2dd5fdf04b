import LayerOverrides.Binary64.Shortest
import LayerOverrides.Proofs.Rounding

/-!
# The shortest decimal of a number

A grid that is finer than the interval around a number has a point in it
(`length_le_of_pointOn?`), so the search for the shortest decimal always finds one; it lies in the
interval, and the grid one step coarser has no point there (`shortest_spec`).  It follows that the
digits make a number below `2 ^ 57` (`shortest_lt`), and that the decimal is hardly greater than
the greatest number (`shortest_mul_le`).  So a decimal that is written is never out of range when it
is read, although reading rounds more than once (`scaledMagnitude_shortest_lt`).
-/

namespace LayerOverrides.Binary64

/-! ## Grids -/

def stepScale : Nat := 1076

/-- How many of the steps that intervals are given in make one. -/
def stepsOfOne : Nat := 2 ^ stepScale

/-- The step of the grid of `10 ^ exponent` is `gridUp / gridDown` of those steps. -/
def gridUp (exponent : Int) : Nat := 10 ^ exponent.toNat * stepsOfOne

def gridDown (exponent : Int) : Nat := 10 ^ (-exponent).toNat

theorem stepsOfOne_pos : 0 < stepsOfOne := Nat.two_pow_pos stepScale

theorem gridUp_pos (exponent : Int) : 0 < gridUp exponent :=
  Nat.mul_pos (Nat.pow_pos (by decide)) stepsOfOne_pos

theorem gridDown_pos (exponent : Int) : 0 < gridDown exponent := Nat.pow_pos (by decide)

/-- Each grid has the tenfold step of the next finer one. -/
theorem gridUp_succ (e : Int) :
    gridUp (e + 1) * gridDown e = 10 * (gridUp e * gridDown (e + 1)) := by
  unfold gridUp gridDown
  rcases Int.lt_or_le e 0 with hneg | hnonneg
  · obtain ⟨k, hk⟩ : ∃ k : Nat, e = -((k : Int) + 1) := ⟨(-e - 1).toNat, by omega⟩
    have h₁ : (e + 1).toNat = 0 := by omega
    have h₂ : e.toNat = 0 := by omega
    have h₃ : (-e).toNat = k + 1 := by omega
    have h₄ : (-(e + 1)).toNat = k := by omega
    rw [h₁, h₂, h₃, h₄, Nat.pow_succ]
    ring
  · obtain ⟨k, hk⟩ : ∃ k : Nat, e = k := ⟨e.toNat, by omega⟩
    have h₁ : (e + 1).toNat = k + 1 := by omega
    have h₂ : e.toNat = k := by omega
    have h₃ : (-e).toNat = 0 := by omega
    have h₄ : (-(e + 1)).toNat = 0 := by omega
    rw [h₁, h₂, h₃, h₄, Nat.pow_succ]
    ring

namespace Interval

variable {i : Interval}

theorem bounds_of_holds {n d : Nat} (h : i.holds n d = true) :
    i.lower * d ≤ n ∧ n ≤ i.upper * d := by
  unfold holds at h
  split at h <;> simp only [Bool.and_eq_true, decide_eq_true_eq] at h
  · exact h
  · exact ⟨h.1.le, h.2.le⟩

theorem holds_of_bounds {n d : Nat} (hlower : i.lower * d < n) (hupper : n < i.upper * d) :
    i.holds n d = true := by
  unfold holds
  split <;> simp only [Bool.and_eq_true, decide_eq_true_eq]
  · exact ⟨hlower.le, hupper.le⟩
  · exact ⟨hlower, hupper⟩

/-- The point nearest to the center on the grid with the step `up / down`. -/
def pointOn? (i : Interval) (up down : Nat) : Option Nat :=
  let c := i.center * down / up
  match i.holds (c * up) down, i.holds ((c + 1) * up) down with
  | true, true =>
    if 2 * (i.center * down % up) < up then some c
    else if up < 2 * (i.center * down % up) then some (c + 1)
    else if c % 2 = 0 then some c else some (c + 1)
  | true, false => some c
  | false, true => some (c + 1)
  | false, false => none

def onGrid? (i : Interval) (e : Int) : Option Nat := i.pointOn? (gridUp e) (gridDown e)

theorem gridPoint?_eq (i : Interval) (e : Int) : i.gridPoint? e = i.onGrid? e := by
  have hone : Nat.pow 2 1076 = stepsOfOne := by
    rw [show 1076 = stepScale from rfl, Nat.pow_eq, stepsOfOne]
  simp only [gridPoint?, hone]
  rfl

theorem holds_of_pointOn? {up down c : Nat} (h : i.pointOn? up down = some c) :
    i.holds (c * up) down = true := by
  unfold pointOn? at h
  simp only at h
  split at h
  · split_ifs at h <;> cases h <;> assumption
  · cases h
    assumption
  · cases h
    assumption
  · cases h

/-- The center lies between its two neighbours on the grid; one that is not in the interval is
past its end. -/
theorem between_neighbours (hlower : i.lower < i.center) (hupper : i.center < i.upper)
    {up down : Nat} (hup : 0 < up) (hdown : 0 < down) :
    i.center * down = i.center * down / up * up + i.center * down % up ∧
      i.center * down % up < up ∧
      (i.holds (i.center * down / up * up) down = false →
        i.center * down / up * up ≤ i.lower * down) ∧
      (i.holds ((i.center * down / up + 1) * up) down = false →
        i.upper * down ≤ (i.center * down / up + 1) * up) := by
  have hdiv : i.center * down = i.center * down / up * up + i.center * down % up :=
    (Nat.div_add_mod' _ _).symm
  have hmod := Nat.mod_lt (i.center * down) hup
  have hlower' : i.lower * down < i.center * down := Nat.mul_lt_mul_of_pos_right hlower hdown
  have hupper' : i.center * down < i.upper * down := Nat.mul_lt_mul_of_pos_right hupper hdown
  generalize i.center * down / up = c at *
  refine ⟨hdiv, hmod, fun hout => ?_, fun hout => ?_⟩
  · by_contra hlt
    have hin := holds_of_bounds (i := i) (n := c * up) (d := down) (by omega) (by omega)
    simp [hout] at hin
  · by_contra hlt
    have hpast : (c + 1) * up = c * up + up := by rw [Nat.add_mul, Nat.one_mul]
    have hin := holds_of_bounds (i := i) (n := (c + 1) * up) (d := down) (by omega) (by omega)
    simp [hout] at hin

/-- A grid without a point in the interval is not finer than the interval. -/
theorem length_le_of_pointOn? (hlower : i.lower < i.center) (hupper : i.center < i.upper)
    {up down : Nat} (hup : 0 < up) (hdown : 0 < down) (h : i.pointOn? up down = none) :
    (i.upper - i.lower) * down ≤ up := by
  obtain ⟨_, _, hbelow, habove⟩ := between_neighbours hlower hupper hup hdown
  have hnone : i.holds (i.center * down / up * up) down = false ∧
      i.holds ((i.center * down / up + 1) * up) down = false := by
    unfold pointOn? at h
    simp only at h
    split at h
    · split_ifs at h
    · cases h
    · cases h
    · exact ⟨by assumption, by assumption⟩
  have hlower' := hbelow hnone.1
  have hupper' := habove hnone.2
  rw [Nat.add_mul, Nat.one_mul] at hupper'
  rw [Nat.sub_mul]
  omega

/-- Where the interval reaches no further up than down, the point of a grid is at most half a step
above the center. -/
theorem le_of_pointOn? (hlower : i.lower < i.center) (hupper : i.center < i.upper)
    (hlength : i.upper - i.center ≤ i.center - i.lower) {up down c : Nat} (hup : 0 < up)
    (hdown : 0 < down) (h : i.pointOn? up down = some c) :
    2 * (c * up) ≤ 2 * (i.center * down) + up := by
  obtain ⟨hdiv, hmod, hbelow, _⟩ := between_neighbours hlower hupper hup hdown
  have hin := (bounds_of_holds (holds_of_pointOn? h)).2
  have hlength' : i.upper * down - i.center * down ≤ i.center * down - i.lower * down := by
    rw [← Nat.sub_mul, ← Nat.sub_mul]
    exact Nat.mul_le_mul_right down hlength
  have hnext : (i.center * down / up + 1) * up = i.center * down / up * up + up := by
    rw [Nat.add_mul, Nat.one_mul]
  unfold pointOn? at h
  simp only at h
  split at h
  · split_ifs at h <;> cases h <;> omega
  · cases h
    omega
  · rename_i hout _
    cases h
    have hlower' := hbelow hout
    omega
  · cases h

theorem search_of_some {e : Int} {c : Nat} (h : i.onGrid? e = some c) (grids : Nat) :
    i.search (grids + 1) e = (c, e) := by
  rw [← gridPoint?_eq] at h
  simp only [search, h]

theorem search_of_none {e : Int} (h : i.onGrid? e = none) (grids : Nat) :
    i.search (grids + 1) e = i.search grids (e - 1) := by
  rw [← gridPoint?_eq] at h
  simp only [search, h]

/-- The search stops at the first grid that has a point, if one of the grids has one. -/
theorem search_spec (i : Interval) (grids : Nat) {e : Int} (start : Int) (hle : e ≤ start)
    (hlt : start - e < grids) (he : i.onGrid? e ≠ none) :
    i.onGrid? (i.search grids start).2 = some (i.search grids start).1 ∧
      (i.search grids start).2 ≤ start ∧
      ((i.search grids start).2 < start → i.onGrid? ((i.search grids start).2 + 1) = none) := by
  induction grids generalizing start with
  | zero => omega
  | succ grids ih =>
    rcases hstart : i.onGrid? start with _ | c
    · rw [search_of_none hstart]
      have hne : e ≠ start := by
        rintro rfl
        exact he hstart
      obtain ⟨hpoint, hto, hcoarser⟩ := ih (start - 1) (by omega) (by omega)
      refine ⟨hpoint, by omega, fun _ => ?_⟩
      rcases Int.lt_or_eq_of_le hto with hbelow | heq
      · exact hcoarser hbelow
      · rw [heq, Int.sub_add_cancel]
        exact hstart
    · rw [search_of_some hstart]
      exact ⟨hstart, Int.le_refl start, fun h => absurd h (Int.lt_irrefl start)⟩

end Interval

/-! ## The interval of a number -/

/-- The scale of the numbers with the longest steps. -/
def greatestScale : Nat := 2045

section

variable {m : Nat}

theorem scale_le (h : m < infinite) : scale m ≤ greatestScale := by
  have : m / hiddenBit < 2047 := (Nat.div_lt_iff_lt_mul (by decide)).2 h
  unfold scale greatestScale
  omega

theorem significand_pos (h : 0 < m) : 0 < significand m := by
  unfold significand
  split_ifs
  · exact h
  · exact Nat.lt_of_lt_of_le (by decide) (Nat.le_add_right _ _)

/-- A number is strictly inside its interval, which is at least three quarters as long as the gap
between numbers, and which ends half a gap above the number. -/
theorem interval_bounds (h : 0 < m) :
    0 < (interval m).lower ∧ (interval m).lower < (interval m).center ∧
      (interval m).center < (interval m).upper ∧
      3 * 2 ^ scale m ≤ (interval m).upper - (interval m).lower ∧
      (interval m).upper ≤ (2 ^ 55 - 2) * 2 ^ scale m := by
  have hpos := significand_pos h
  have hlt : significand m < 2 ^ 53 := significand_lt m
  have hunit : 0 < 2 ^ scale m := Nat.two_pow_pos _
  unfold interval
  simp only [Nat.pow_eq]
  generalize hb : (if significand m = hiddenBit ∧ 0 < scale m then 1 else 2) = below
  have hbelow : 0 < below ∧ below ≤ 2 := by
    rw [← hb]
    split_ifs <;> decide
  refine ⟨?_, ?_, ?_, ?_, ?_⟩
  · exact Nat.mul_pos (by omega) hunit
  · exact Nat.mul_lt_mul_of_pos_right (by omega) hunit
  · exact Nat.mul_lt_mul_of_pos_right (by omega) hunit
  · rw [← Nat.sub_mul]
    exact Nat.mul_le_mul_right _ (by omega)
  · exact Nat.mul_le_mul_right _ (by omega)

theorem center_le (m : Nat) : (interval m).center ≤ (2 ^ 55 - 4) * 2 ^ scale m := by
  have hlt : significand m < 2 ^ 53 := significand_lt m
  exact Nat.mul_le_mul_right _ (by omega)

/-- The interval reaches as far down as up, but for a power of two, which has a small
significand. -/
theorem upper_sub_center_le (h : 0 < m) :
    (interval m).upper - (interval m).center ≤ (interval m).center - (interval m).lower ∨
      (interval m).upper ≤ (2 ^ 54 + 2) * 2 ^ scale m := by
  have hpos := significand_pos h
  unfold interval
  simp only [Nat.pow_eq]
  by_cases hpower : significand m = hiddenBit ∧ 0 < scale m
  · right
    rw [hpower.1]
    exact Nat.mul_le_mul_right _ (by decide)
  · left
    rw [if_neg hpower, ← Nat.sub_mul, ← Nat.sub_mul]
    exact Nat.mul_le_mul_right _ (by omega)

/-- Every interval has a point of the finest grid. -/
theorem onGrid?_finest (h : 0 < m) : (interval m).onGrid? (-324) ≠ none := by
  obtain ⟨_, hlower, hupper, hlength, _⟩ := interval_bounds h
  intro hnone
  have hle := Interval.length_le_of_pointOn? hlower hupper (gridUp_pos _) (gridDown_pos _) hnone
  have hgrid : gridUp (-324) < 3 * gridDown (-324) := by decide +kernel
  have hthree : 3 * gridDown (-324) ≤
      ((interval m).upper - (interval m).lower) * gridDown (-324) :=
    Nat.mul_le_mul_right _ (le_trans (Nat.le_mul_of_pos_right 3 (Nat.two_pow_pos _)) hlength)
  exact absurd (hthree.trans hle) (Nat.not_le_of_lt hgrid)

theorem shortest_spec (h : 0 < m) :
    (interval m).onGrid? (shortest m).2 = some (shortest m).1 ∧ (shortest m).2 ≤ 308 ∧
      ((shortest m).2 < 308 → (interval m).onGrid? ((shortest m).2 + 1) = none) :=
  (interval m).search_spec gridCount (e := -324) coarsestGrid (by decide) (by decide)
    (onGrid?_finest h)

theorem shortest_bounds (h : 0 < m) :
    (interval m).lower * gridDown (shortest m).2 ≤ (shortest m).1 * gridUp (shortest m).2 ∧
      (shortest m).1 * gridUp (shortest m).2 ≤ (interval m).upper * gridDown (shortest m).2 :=
  Interval.bounds_of_holds (Interval.holds_of_pointOn? (shortest_spec h).1)

theorem shortest_pos (h : 0 < m) : 0 < (shortest m).1 := by
  obtain ⟨hlower, _⟩ := interval_bounds h
  have hpos := Nat.mul_pos hlower (gridDown_pos (shortest m).2)
  exact Nat.pos_of_mul_pos_right (Nat.lt_of_lt_of_le hpos (shortest_bounds h).1)

def quarterScale : Nat := 969

/-- A quarter of the gap between the two greatest numbers, which are whole. -/
def quarterGap : Nat := 2 ^ quarterScale

theorem quarterGap_mul : 2 ^ greatestScale = quarterGap * stepsOfOne := by
  rw [show greatestScale = quarterScale + stepScale from rfl, Nat.pow_add, quarterGap, stepsOfOne]

/-- A shortest decimal that is whole is at most half a gap above the greatest number, and at most
half a step of its own grid. -/
theorem shortest_mul_le (h : 0 < m) (hm : m < infinite) {k : Nat} (hk : (shortest m).2 = k) :
    (shortest m).1 * 10 ^ k ≤ (2 ^ 55 - 2) * quarterGap ∧
      2 * ((shortest m).1 * 10 ^ k) ≤ 2 * ((2 ^ 55 - 4) * quarterGap) + 10 ^ k := by
  obtain ⟨_, hlower, hupper, _, hend⟩ := interval_bounds h
  have hdown : gridDown k = 1 := by simp [gridDown]
  have hup : gridUp k = 10 ^ k * stepsOfOne := by simp [gridUp]
  have hunit : 2 ^ scale m ≤ quarterGap * stepsOfOne := by
    rw [← quarterGap_mul]
    exact Nat.pow_le_pow_right (by decide) (scale_le hm)
  have hle := (shortest_bounds h).2
  have hpoint := (shortest_spec h).1
  rw [hk] at hle hpoint
  rw [hdown, hup, Nat.mul_one, ← Nat.mul_assoc] at hle
  have hpos := stepsOfOne_pos
  refine ⟨Nat.le_of_mul_le_mul_right ?_ hpos, Nat.le_of_mul_le_mul_right ?_ hpos⟩
  · calc (shortest m).1 * 10 ^ k * stepsOfOne ≤ (interval m).upper := hle
      _ ≤ (2 ^ 55 - 2) * 2 ^ scale m := hend
      _ ≤ (2 ^ 55 - 2) * (quarterGap * stepsOfOne) := Nat.mul_le_mul_left _ hunit
      _ = (2 ^ 55 - 2) * quarterGap * stepsOfOne := (Nat.mul_assoc _ _ _).symm
  · rcases upper_sub_center_le h with hlength | hpower
    · have hnearest := Interval.le_of_pointOn? hlower hupper hlength (gridUp_pos _)
        (gridDown_pos _) hpoint
      rw [hdown, hup, Nat.mul_one] at hnearest
      calc 2 * ((shortest m).1 * 10 ^ k) * stepsOfOne
          = 2 * ((shortest m).1 * (10 ^ k * stepsOfOne)) := by ring
        _ ≤ 2 * (interval m).center + 10 ^ k * stepsOfOne := hnearest
        _ ≤ 2 * ((2 ^ 55 - 4) * (quarterGap * stepsOfOne)) + 10 ^ k * stepsOfOne :=
          Nat.add_le_add_right (Nat.mul_le_mul_left 2
            ((center_le m).trans (Nat.mul_le_mul_left _ hunit))) _
        _ = (2 * ((2 ^ 55 - 4) * quarterGap) + 10 ^ k) * stepsOfOne := by ring
    · calc 2 * ((shortest m).1 * 10 ^ k) * stepsOfOne
          = 2 * ((shortest m).1 * 10 ^ k * stepsOfOne) := Nat.mul_assoc _ _ _
        _ ≤ 2 * ((2 ^ 54 + 2) * (quarterGap * stepsOfOne)) :=
          Nat.mul_le_mul_left 2 (hle.trans (hpower.trans (Nat.mul_le_mul_left _ hunit)))
        _ ≤ 2 * ((2 ^ 55 - 4) * (quarterGap * stepsOfOne)) :=
          Nat.mul_le_mul_left 2 (Nat.mul_le_mul_right _ (by decide))
        _ = 2 * ((2 ^ 55 - 4) * quarterGap) * stepsOfOne := by ring
        _ ≤ (2 * ((2 ^ 55 - 4) * quarterGap) + 10 ^ k) * stepsOfOne :=
          Nat.mul_le_mul_right _ (Nat.le_add_right _ _)

/-- The digits of a shortest decimal make a number that is not much greater than a significand. -/
theorem shortest_lt (h : 0 < m) (hm : m < infinite) : (shortest m).1 < 2 ^ 57 := by
  obtain ⟨_, hto, hcoarser⟩ := shortest_spec h
  rcases Int.lt_or_eq_of_le hto with hlt | heq
  · obtain ⟨_, hlower, hupper, hlength, hend⟩ := interval_bounds h
    have hle := (shortest_bounds h).2
    have hgap := Interval.length_le_of_pointOn? hlower hupper (gridUp_pos _) (gridDown_pos _)
      (hcoarser hlt)
    have htenfold := gridUp_succ (shortest m).2
    have hpos : 0 < gridUp (shortest m).2 * gridDown ((shortest m).2 + 1) :=
      Nat.mul_pos (gridUp_pos _) (gridDown_pos _)
    generalize (shortest m).2 = e at *
    generalize (shortest m).1 = v at *
    have hbound : 3 * v * (gridUp e * gridDown (e + 1)) ≤
        (2 ^ 55 - 2) * 10 * (gridUp e * gridDown (e + 1)) := by
      calc 3 * v * (gridUp e * gridDown (e + 1))
          = 3 * (v * gridUp e) * gridDown (e + 1) := by ring
        _ ≤ 3 * ((interval m).upper * gridDown e) * gridDown (e + 1) :=
          Nat.mul_le_mul_right _ (Nat.mul_le_mul_left 3 hle)
        _ ≤ 3 * ((2 ^ 55 - 2) * 2 ^ scale m * gridDown e) * gridDown (e + 1) :=
          Nat.mul_le_mul_right _ (Nat.mul_le_mul_left 3 (Nat.mul_le_mul_right _ hend))
        _ = (2 ^ 55 - 2) * (3 * 2 ^ scale m) * gridDown (e + 1) * gridDown e := by ring
        _ ≤ (2 ^ 55 - 2) * ((interval m).upper - (interval m).lower) * gridDown (e + 1) *
            gridDown e :=
          Nat.mul_le_mul_right _ (Nat.mul_le_mul_right _ (Nat.mul_le_mul_left _ hlength))
        _ = (2 ^ 55 - 2) * (((interval m).upper - (interval m).lower) * gridDown (e + 1)) *
            gridDown e := by ring
        _ ≤ (2 ^ 55 - 2) * gridUp (e + 1) * gridDown e :=
          Nat.mul_le_mul_right _ (Nat.mul_le_mul_left _ hgap)
        _ = (2 ^ 55 - 2) * (gridUp (e + 1) * gridDown e) := by ring
        _ = (2 ^ 55 - 2) * 10 * (gridUp e * gridDown (e + 1)) := by rw [htenfold]; ring
    have hv := Nat.le_of_mul_le_mul_right hbound hpos
    omega
  · have hle := (shortest_mul_le h hm (k := 308) heq).1
    refine Nat.lt_of_mul_lt_mul_right (a := 10 ^ 308) (Nat.lt_of_le_of_lt hle ?_)
    decide +kernel

/-! ## Reading the decimal -/

/-- The most that the digits of a shortest decimal with this exponent can make. -/
def mostDigits (k : Nat) : Nat :=
  min (2 ^ 57) (min ((2 ^ 55 - 2) * quarterGap / 10 ^ k)
    ((2 * ((2 ^ 55 - 4) * quarterGap) + 10 ^ k) / (2 * 10 ^ k)))

theorem shortest_le_mostDigits (h : 0 < m) (hm : m < infinite) {k : Nat}
    (hk : (shortest m).2 = k) : (shortest m).1 ≤ mostDigits k := by
  obtain ⟨hgap, hstep⟩ := shortest_mul_le h hm hk
  have hpower : 0 < 10 ^ k := Nat.pow_pos (by decide)
  refine Nat.le_min.2 ⟨(shortest_lt h hm).le, Nat.le_min.2 ⟨?_, ?_⟩⟩
  · exact (Nat.le_div_iff_mul_le hpower).2 hgap
  · refine (Nat.le_div_iff_mul_le (Nat.mul_pos (by decide) hpower)).2 ?_
    rw [Nat.mul_left_comm]
    exact hstep

/-- Up to `10 ^ 290`, no number below `2 ^ 57` is scaled out of range; above, the greatest number
is what keeps the digits small. -/
theorem scaledMagnitude_mostDigits_lt {k : Nat} (hk : k ≤ greatestPower) :
    scaledMagnitude (mostDigits k) (.ofNat k) < infinite := by
  have htable : scaledMagnitude (2 ^ 57) (.ofNat 290) < infinite ∧ ∀ j < 18,
      scaledMagnitude (mostDigits (291 + j)) (.ofNat (291 + j)) < infinite := by decide +kernel
  by_cases hsmall : k ≤ 290
  · exact Nat.lt_of_le_of_lt
      (scaledMagnitude_ofNat_mono (Nat.min_le_left _ _) hsmall (by decide)) htable.1
  · obtain ⟨j, rfl⟩ : ∃ j, k = 291 + j := ⟨k - 291, by omega⟩
    refine htable.2 j ?_
    unfold greatestPower at hk
    omega

/-- The shortest decimal of a finite number is read as a finite number. -/
theorem scaledMagnitude_shortest_lt (h : 0 < m) (hm : m < infinite) :
    scaledMagnitude (shortest m).1 (shortest m).2 < infinite := by
  rcases he : (shortest m).2 with k | k
  · have hk : k ≤ greatestPower := by
      have hto := (shortest_spec h).2.1
      rw [he] at hto
      exact Int.ofNat_le.1 hto
    exact Nat.lt_of_le_of_lt
      (scaledMagnitude_ofNat_mono (shortest_le_mostDigits h hm he) (Nat.le_refl k) hk)
      (scaledMagnitude_mostDigits_lt hk)
  · exact scaledMagnitude_negSucc_lt (Nat.lt_trans (shortest_lt h hm) (by decide)) k

end

end LayerOverrides.Binary64
