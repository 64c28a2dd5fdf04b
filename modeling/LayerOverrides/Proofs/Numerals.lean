import LayerOverrides.Text.Decimal
import Mathlib.Tactic.SplitIfs

/-!
# What numerals stand for

A numeral is one or more ASCII digits, and leading zeros do not matter; an integer may have a sign
in front.  These are the texts that are read as numbers, and nothing else is
(`readNat?_eq_some_iff`, `readInt?_eq_some_iff`).
-/

namespace LayerOverrides.Text

/-- One or more ASCII digits, with the number that they stand for in decimal. -/
structure IsNumeral (s : List Char) (n : Nat) : Prop where
  nonempty : s ≠ []
  digits : ∀ c ∈ s, c.isDigit = true
  value : Nat.ofDigitChars 10 s 0 = n

theorem readNat?_eq_some_iff {s : List Char} {n : Nat} :
    readNat? s = some n ↔ IsNumeral s n := by
  unfold readNat?
  constructor
  · intro h
    split_ifs at h with hs
    exact ⟨hs.1, List.all_eq_true.1 hs.2, Option.some.inj h⟩
  · rintro ⟨hne, hdigits, rfl⟩
    rw [if_pos ⟨hne, List.all_eq_true.2 hdigits⟩]

theorem isNumeral_writeNat (n : Nat) : IsNumeral (writeNat n) n :=
  readNat?_eq_some_iff.1 (readNat?_writeNat n)

/-- A numeral with an optional sign. -/
inductive IsInteger : List Char → Int → Prop where
  | unsigned {s : List Char} {n : Nat} (h : IsNumeral s n) : IsInteger s n
  | plus {s : List Char} {n : Nat} (h : IsNumeral s n) : IsInteger ('+' :: s) n
  | minus {s : List Char} {n : Nat} (h : IsNumeral s n) : IsInteger ('-' :: s) (-n)

theorem exists_isNumeral {s : List Char} {f : Int → Int} {n : Int}
    (h : ((readNat? s).bind fun m => some (m : Int)).map f = some n) :
    ∃ m : Nat, IsNumeral s m ∧ f m = n := by
  obtain ⟨k, hk, rfl⟩ := Option.map_eq_some_iff.1 h
  obtain ⟨m, hm, hmk⟩ := Option.bind_eq_some_iff.1 hk
  exact ⟨m, readNat?_eq_some_iff.1 hm, congrArg f (Option.some.inj hmk)⟩

theorem readInt?_eq_some_iff {s : List Char} {n : Int} :
    readInt? s = some n ↔ IsInteger s n := by
  constructor
  · intro h
    unfold readInt? at h
    split at h
    · obtain ⟨m, hm, rfl⟩ := exists_isNumeral h
      exact .minus hm
    · obtain ⟨m, hm, rfl⟩ := exists_isNumeral h
      exact .plus hm
    · obtain ⟨m, hm, rfl⟩ := exists_isNumeral h
      exact .unsigned hm
  · rintro (h | h | h)
    · rw [readInt?_of_all_digits (List.all_eq_true.2 h.digits), readNat?_eq_some_iff.2 h]
      rfl
    · rw [readInt?, readNat?_eq_some_iff.2 h]
      rfl
    · rw [readInt?, readNat?_eq_some_iff.2 h]
      rfl

end LayerOverrides.Text
