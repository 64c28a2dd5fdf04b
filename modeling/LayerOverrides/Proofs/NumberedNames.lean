import LayerOverrides.Proofs.CopyNames
import LayerOverrides.Proofs.Numerals

/-!
# Which names are those of copies

A name is that of a copy if it is a base without a line break and, behind that, a blank and in
brackets a numeral of a positive number (`CopyName.IsNumbered`).  Such a name is taken apart into
this base and this number, also where the base ends in a number in brackets itself, and every other
name is left whole (`CopyName.ofName_outcome`).
-/

namespace LayerOverrides.CopyName

/-- The name has the base and the number.  The numeral stands for the number itself, not for its
lowest 32 bits, and may begin with zeros. -/
structure IsNumbered (name base : String) (n : UInt32) : Prop where
  unbroken : '\n' ∉ base.toList
  positive : 0 < n.toNat
  written : ∃ numeral, Text.IsNumeral numeral n.toNat ∧
    name.toList = base.toList ++ ' ' :: '(' :: numeral ++ [')']

variable {name base : String} {n : UInt32}

theorem ofName_eq_some_iff : ofName name = ⟨base, some n⟩ ↔ IsNumbered name base n := by
  constructor
  · intro h
    rcases ofName_cases name with hwhole | ⟨front, numeral, m, hcut, hread, hpositive, hlt, hparts⟩
    · rw [hwhole] at h
      exact absurd (congrArg CopyName.number h) (by simp)
    rw [hparts] at h
    obtain ⟨rfl, hn⟩ := CopyName.mk.inj h
    obtain rfl := Option.some.inj hn
    obtain ⟨hunbroken, -, hname⟩ := cut?_eq_some_iff.1 hcut
    have hm : (UInt32.ofNat m).toNat = m := UInt32.toNat_ofNat_of_lt' hlt
    exact ⟨by rwa [String.toList_ofList], by rwa [hm], numeral,
      by rw [hm]; exact Text.readNat?_eq_some_iff.1 hread, by rwa [String.toList_ofList]⟩
  · rintro ⟨hunbroken, hpositive, numeral, hnumeral, hname⟩
    exact ofName_of_cut? (cut?_eq_some_iff.2
      ⟨hunbroken, List.all_eq_true.2 hnumeral.digits, hname⟩)
      (Text.readNat?_eq_some_iff.2 hnumeral) hpositive

theorem ofName_eq_none_iff :
    ofName name = ⟨name, none⟩ ↔ ¬ ∃ base n, IsNumbered name base n := by
  constructor
  · rintro hwhole ⟨base, n, h⟩
    rw [ofName_eq_some_iff.2 h] at hwhole
    exact absurd (congrArg CopyName.number hwhole) (by simp)
  · intro hnone
    rcases ofName_cases name with hwhole | ⟨_, _, _, -, -, -, -, hparts⟩
    · exact hwhole
    · exact absurd ⟨_, _, ofName_eq_some_iff.1 hparts⟩ hnone

theorem isNumbered_numbered_iff :
    IsNumbered (numbered base n) base n ↔ '\n' ∉ base.toList ∧ 0 < n.toNat := by
  constructor
  · intro h
    exact ⟨h.unbroken, h.positive⟩
  · rintro ⟨hunbroken, hpositive⟩
    exact ⟨hunbroken, hpositive, Text.writeNat n.toNat, Text.isNumeral_writeNat n.toNat,
      by simp [numbered]⟩

/-- A name is taken apart into a base and a number exactly if it has them, and is left whole
exactly if it has none.  A numbered name is taken apart into what it was put together from, unless
the base has a line break or the number is zero. -/
theorem ofName_outcome (name base : String) (n : UInt32) :
    (ofName name = ⟨base, some n⟩ ↔ IsNumbered name base n) ∧
      (ofName name = ⟨name, none⟩ ↔ ¬ ∃ base n, IsNumbered name base n) ∧
      (ofName (numbered base n) = ⟨base, some n⟩ ↔ '\n' ∉ base.toList ∧ 0 < n.toNat) :=
  ⟨ofName_eq_some_iff, ofName_eq_none_iff, ofName_eq_some_iff.trans isNumbered_numbered_iff⟩

/-- Only the last number counts, and zeros in front of it do not. -/
example : ofName "A (1) (04)" = ⟨"A (1)", some 4⟩ := by decide +kernel

end LayerOverrides.CopyName
