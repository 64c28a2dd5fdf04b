import LayerOverrides.Document.Fields
import LayerOverrides.Proofs.Numerals
import LayerOverrides.Proofs.Rounding
import Mathlib.Algebra.Order.Floor.Semifield
import Mathlib.Data.Rat.Floor
import Mathlib.Tactic.Linarith
import Mathlib.Tactic.NormNum

/-!
# Ranks that a field states

A field states a rank if it is a number with the value of one, or a text that spells one
(`StatesRank`).  What is read is more: a number loses its fraction first, so every number between
two ranks counts as the lower one, and every negative number above `-1` as the rank `0`
(`rank?_eq_some_iff`).  So a field is read as the rank that it states unless it is a number with a
fraction, greater than `-1` and below the end of the ranks (`rankAt_outcome`).
-/

namespace LayerOverrides

/-! ## Without the fraction -/

/-- What is left of a number without its fraction, as far as it is not negative: the whole number
below it, and `0` also for a number between `-1` and `0`. -/
def IsWholePart (q : ℚ) (r : Nat) : Prop :=
  (r : ℚ) ≤ q ∧ q < r + 1 ∨ r = 0 ∧ -1 < q ∧ q < 0

theorem intCast_eq_iff_isWholePart {m : Int} {r : Nat} : m = r ↔ IsWholePart m r := by
  constructor
  · rintro rfl
    exact .inl (by simp)
  · rintro (⟨hle, hlt⟩ | ⟨-, hlt, hneg⟩)
    · have hle' : (r : Int) ≤ m := by exact_mod_cast hle
      have hlt' : m < (r : Int) + 1 := by exact_mod_cast hlt
      omega
    · have hlt' : -1 < m := by exact_mod_cast hlt
      have hneg' : m < 0 := by exact_mod_cast hneg
      omega

theorem floor_eq_iff_isWholePart {q : ℚ} (hq : 0 ≤ q) {r : Nat} :
    (⌊q⌋₊ : Int) = r ↔ IsWholePart q r := by
  rw [Nat.cast_inj, Nat.floor_eq_iff hq]
  constructor
  · exact .inl
  · rintro (h | ⟨-, -, hneg⟩)
    · exact h
    · linarith

theorem neg_floor_eq_iff_isWholePart {q : ℚ} (hq : 0 ≤ q) {r : Nat} :
    -(⌊q⌋₊ : Int) = r ↔ IsWholePart (-q) r := by
  have hfloor : ⌊q⌋₊ = 0 ↔ q < 1 := by simp [Nat.floor_eq_iff hq, hq]
  have hr : (0 : ℚ) ≤ r := Nat.cast_nonneg r
  constructor
  · intro h
    obtain rfl : r = 0 := by omega
    have hlt : q < 1 := hfloor.1 (by omega)
    rcases hq.eq_or_lt with rfl | hpos
    · exact .inl (by norm_num)
    · exact .inr ⟨rfl, by linarith, by linarith⟩
  · intro h
    have hlt : q < 1 ∧ (r : ℚ) < 1 := by
      rcases h with ⟨hle, -⟩ | ⟨rfl, hlt, -⟩
      · exact ⟨by linarith, by linarith⟩
      · exact ⟨by linarith, by norm_num⟩
    have hzero : r < 1 := by exact_mod_cast hlt.2
    have hwhole := hfloor.2 hlt.1
    omega

/-- The value of a number as a fraction. -/
def Binary64.value (x : Binary64) : ℚ :=
  if x.negative then -(units x.magnitude / unitsOfOne) else units x.magnitude / unitsOfOne

theorem Binary64.truncated_eq_iff (x : Binary64) (r : Nat) :
    x.truncated = r ↔ IsWholePart x.value r := by
  have hone : Nat.pow 2 1074 = unitsOfOne := by
    rw [show 1074 = unitScale from rfl, Nat.pow_eq, unitsOfOne]
  -- The division of naturals in `truncated` is the floor of the magnitude, whatever its sign.
  have hwhole := Nat.floor_div_eq_div (K := ℚ) (units x.magnitude) unitsOfOne
  have hq : (0 : ℚ) ≤ units x.magnitude / unitsOfOne :=
    div_nonneg (Nat.cast_nonneg _) (Nat.cast_nonneg _)
  have htruncated : x.truncated =
      if x.negative then -(⌊(units x.magnitude / unitsOfOne : ℚ)⌋₊ : Int)
      else (⌊(units x.magnitude / unitsOfOne : ℚ)⌋₊ : Int) := by
    rw [hwhole]
    simp only [truncated, units, hone, Nat.pow_eq]
  rw [htruncated, value]
  cases x.negative with
  | false => exact floor_eq_iff_isWholePart hq
  | true => exact neg_floor_eq_iff_isWholePart hq

namespace Json

def Number.value : Number → ℚ
  | .integer n _ _ => n
  | .double x => x.value

theorem Number.truncated_eq_iff (n : Number) (r : Nat) :
    n.truncated = r ↔ IsWholePart n.value r := by
  cases n with
  | integer m lower upper => exact intCast_eq_iff_isWholePart
  | double x => exact x.truncated_eq_iff r

/-! ## What is read and what is stated -/

/-- The ranks that JSON values are read as. -/
inductive ReadsRank : Json → UInt32 → Prop where
  | number {n : Number} {r : UInt32} (h : IsWholePart n.value r.toNat) : ReadsRank (.number n) r
  | text {s : String} {r : UInt32} (h : Text.IsInteger (Text.trim s.toList) r.toNat) :
    ReadsRank (.string s) r

/-- The ranks that JSON values state. -/
inductive StatesRank : Json → UInt32 → Prop where
  | number {n : Number} {r : UInt32} (h : n.value = r.toNat) : StatesRank (.number n) r
  | text {s : String} {r : UInt32} (h : Text.IsInteger (Text.trim s.toList) r.toNat) :
    StatesRank (.string s) r

theorem rankOfInt?_eq_some_iff {n : Int} {r : UInt32} :
    rankOfInt? n = some r ↔ n = r.toNat := by
  have hlt := r.toNat_lt
  unfold rankOfInt?
  constructor
  · intro h
    split at h
    · rename_i hn
      rw [← Option.some.inj h, UInt32.toNat_ofNat_of_lt' (by simp only [UInt32.size]; omega)]
      omega
    · cases h
  · rintro rfl
    rw [if_pos (by omega), Int.toNat_natCast, UInt32.ofNat_toNat]

theorem rank?_eq_some_iff {node : Json} {r : UInt32} :
    rank? node = some r ↔ ReadsRank node r := by
  cases node with
  | number n =>
    rw [rank?, rankOfInt?_eq_some_iff, n.truncated_eq_iff]
    exact ⟨.number, fun h => by cases h; assumption⟩
  | string s =>
    rw [rank?, Option.bind_eq_some_iff]
    constructor
    · rintro ⟨m, hm, hr⟩
      rw [rankOfInt?_eq_some_iff] at hr
      exact .text (hr ▸ Text.readInt?_eq_some_iff.1 hm)
    · rintro ⟨⟩
      rename_i h
      exact ⟨r.toNat, Text.readInt?_eq_some_iff.2 h, rankOfInt?_eq_some_iff.2 rfl⟩
  | _ => exact ⟨fun h => by simp [rank?] at h, fun h => by cases h⟩

/-- A number that lies in the range of the ranks, or less than one below it. -/
def Number.NearRanks (n : Number) : Prop := -1 < n.value ∧ n.value < 0x100000000

theorem Number.exists_readsRank {n : Number} (h : n.NearRanks) :
    ∃ r, ReadsRank (.number n) r := by
  obtain ⟨hlower, hupper⟩ := h
  rcases lt_or_ge n.value 0 with hneg | hpos
  · exact ⟨0, .number (.inr ⟨rfl, hlower, hneg⟩)⟩
  · have hlt : ⌊n.value⌋₊ < 0x100000000 := (Nat.floor_lt hpos).2 (by exact_mod_cast hupper)
    refine ⟨UInt32.ofNat ⌊n.value⌋₊, .number ?_⟩
    rw [UInt32.toNat_ofNat_of_lt' hlt]
    exact (floor_eq_iff_isWholePart hpos).1 rfl

theorem nearRanks_of_readsRank {n : Number} {r : UInt32} (h : ReadsRank (.number n) r) :
    n.NearRanks := by
  have hlt : (r.toNat : ℚ) + 1 ≤ 0x100000000 := by exact_mod_cast r.toNat_lt
  have hr : (0 : ℚ) ≤ r.toNat := Nat.cast_nonneg _
  rcases h with ⟨⟨hlower, hupper⟩ | ⟨-, hlower, hupper⟩⟩
  · exact ⟨by linarith, by linarith⟩
  · exact ⟨hlower, by linarith⟩

theorem readsRank_of_statesRank {node : Json} {r : UInt32} (h : StatesRank node r) :
    ReadsRank node r := by
  cases h with
  | number h => exact .number (.inl ⟨h.ge, by linarith⟩)
  | text h => exact .text h

/-- A whole number is read as nothing but its own value. -/
theorem statesRank_of_readsRank {n : Number} {r : UInt32} {m : Int} (hm : n.value = m)
    (h : ReadsRank (.number n) r) : StatesRank (.number n) r := by
  cases h with
  | number h =>
    rw [hm] at h
    have hr := intCast_eq_iff_isWholePart.2 h
    exact .number (by rw [hm, hr]; rfl)

namespace Members

/-- The field has the ranks that it states, and no others. -/
def RankIsStated (members : Members) (key : String) : Prop :=
  ∀ r, members.rankAt key = some r ↔ ∃ node, members.get? key = some node ∧ StatesRank node r

theorem rankAt_eq_some_iff {members : Members} {key : String} {r : UInt32} :
    members.rankAt key = some r ↔ ∃ node, members.get? key = some node ∧ ReadsRank node r := by
  simp only [rankAt, Option.bind_eq_some_iff, rank?_eq_some_iff]

theorem rankIsStated_iff (members : Members) (key : String) : members.RankIsStated key ↔
    ∀ n, members.get? key = some (.number n) → n.NearRanks → ∃ m : Int, n.value = m := by
  constructor
  · intro h n hn hnear
    obtain ⟨r, hr⟩ := n.exists_readsRank hnear
    obtain ⟨node, hnode, hstates⟩ := (h r).1 (rankAt_eq_some_iff.2 ⟨_, hn, hr⟩)
    obtain rfl := Option.some.inj (hn.symm.trans hnode)
    cases hstates with
    | number hvalue => exact ⟨r.toNat, by exact_mod_cast hvalue⟩
  · intro h r
    rw [rankAt_eq_some_iff]
    constructor
    · rintro ⟨node, hnode, hreads⟩
      refine ⟨node, hnode, ?_⟩
      cases node with
      | number n =>
        obtain ⟨m, hm⟩ := h n hnode (nearRanks_of_readsRank hreads)
        exact statesRank_of_readsRank hm hreads
      | string s =>
        cases hreads with
        | text hs => exact .text hs
      | _ => cases hreads
    · rintro ⟨node, hnode, hstates⟩
      exact ⟨node, hnode, readsRank_of_statesRank hstates⟩

/-- A field has the ranks that its value is read as.  These are the ranks that it states exactly
if it is no number with a fraction that lies near the ranks. -/
theorem rankAt_outcome (members : Members) (key : String) :
    (∀ r, members.rankAt key = some r ↔
      ∃ node, members.get? key = some node ∧ ReadsRank node r) ∧
    (members.RankIsStated key ↔
      ∀ n, members.get? key = some (.number n) → n.NearRanks → ∃ m : Int, n.value = m) :=
  ⟨fun _ => rankAt_eq_some_iff, rankIsStated_iff members key⟩

end Members

end Json

namespace Samples

/-- The number `-0.5`. -/
def minusHalf : Json.Number := .double ⟨true, 1022 * Binary64.hiddenBit, by decide⟩

theorem value_minusHalf : minusHalf.value = -(1 / 2) := by
  have hunits : 2 * Binary64.units (1022 * Binary64.hiddenBit) = Binary64.unitsOfOne := by
    decide +kernel
  have hcast : 2 * (Binary64.units (1022 * Binary64.hiddenBit) : ℚ) = Binary64.unitsOfOne := by
    exact_mod_cast hunits
  have hone : (Binary64.unitsOfOne : ℚ) ≠ 0 := by exact_mod_cast Binary64.unitsOfOne_pos.ne'
  rw [minusHalf, Json.Number.value, Binary64.value, if_pos rfl, neg_inj, div_eq_div_iff hone
    two_ne_zero, ← hcast]
  ring

end Samples

open Samples in
/-- A negative number with a fraction has the rank `0`. -/
theorem rankAt_minusHalf : minusHalf.value < 0 ∧
    Json.Members.rankAt [("rank", .number minusHalf)] "rank" = some 0 ∧
      ¬ Json.Members.RankIsStated [("rank", .number minusHalf)] "rank" := by
  have hvalue := value_minusHalf
  have hfield : Json.Members.get? [("rank", .number minusHalf)] "rank" =
      some (.number minusHalf) := rfl
  have hrank : Json.Members.rankAt [("rank", .number minusHalf)] "rank" = some 0 :=
    Json.Members.rankAt_eq_some_iff.2
      ⟨_, hfield, .number (.inr ⟨rfl, by linarith, by linarith⟩)⟩
  refine ⟨by linarith, hrank, fun h => ?_⟩
  obtain ⟨node, hnode, hstates⟩ := (h 0).1 hrank
  obtain rfl := Option.some.inj (hfield.symm.trans hnode)
  cases hstates with
  | number hzero =>
    rw [hvalue] at hzero
    norm_num at hzero

end LayerOverrides
