import LayerOverrides.Json.Numeral
import LayerOverrides.Proofs.ShortestDecimals
import Mathlib.Data.List.TakeWhile

/-!
# Texts of numbers

The text of an integer is read as that integer (`ofText?_integer`).  The text of a double is read as
a double, though not always the same one: a number written in positions has digits behind its point,
so reading divides, which leaves it finite; a number written with an exponent is its shortest
decimal.  So the text of every number is read as a number (`ofText?_text`).  Whatever is read as a
number is made of the characters of numerals alone (`isNumeralChar_of_ofText?`).
-/

namespace LayerOverrides

namespace Text

theorem all_isDigit_writeNat (n : Nat) : (writeNat n).all Char.isDigit = true :=
  List.all_eq_true.2 fun _ hc => isDigit_of_mem_writeNat hc

/-- A numeral of a positive number has no leading zero. -/
theorem writeNat_eq_cons {n : Nat} (h : 0 < n) : ∃ d s, writeNat n = d :: s ∧ d ≠ '0' := by
  unfold writeNat
  rw [Nat.toDigits_eq_if (by decide)]
  split
  · rename_i hlt
    refine ⟨_, _, rfl, ?_⟩
    have hdigit : ∀ k < 10, 0 < k → Nat.digitChar k ≠ '0' := by decide
    exact hdigit n hlt h
  · obtain ⟨d, s, hds, hd⟩ := writeNat_eq_cons (n := n / 10) (by omega)
    rw [writeNat] at hds
    rw [hds]
    exact ⟨d, s ++ [Nat.digitChar (n % 10)], rfl, hd⟩

theorem readInt?_plus (n : Nat) : readInt? ('+' :: writeNat n) = some (n : Int) := by
  rw [readInt?, readNat?_writeNat]
  rfl

end Text

open Text

namespace Json

open Binary64 (Digits)

/-! ## Digits -/

theorem digit_lt {c : Char} (h : c.isDigit = true) : c.toNat - '0'.toNat < 10 := by
  have h' : c.toNat ≤ '9'.toNat := (Char.isDigit_iff_toNat.1 h).2
  simp only [Char.reduceToNat] at h' ⊢
  omega

theorem ofDigitChars_lt : ∀ {s : List Char} {a : Nat}, s.all Char.isDigit = true →
    Nat.ofDigitChars 10 s a < (a + 1) * 10 ^ s.length
  | [], a, _ => by simp
  | c :: s, a, h => by
    simp only [List.all_cons, Bool.and_eq_true] at h
    have hc := digit_lt h.1
    rw [Nat.ofDigitChars_cons, List.length_cons, Nat.pow_succ]
    calc Nat.ofDigitChars 10 s (10 * a + (c.toNat - '0'.toNat))
        < (10 * a + (c.toNat - '0'.toNat) + 1) * 10 ^ s.length := ofDigitChars_lt h.2
      _ ≤ (a + 1) * 10 * 10 ^ s.length := Nat.mul_le_mul_right _ (by omega)
      _ = (a + 1) * (10 ^ s.length * 10) := by ring

/-- One digit of a numeral that fits into 64 bits, and what is left for the others. -/
theorem next_fits {c : Char} {s : List Char} {a : Nat} (h : (c :: s).all Char.isDigit = true)
    (hfits : (a + 1) * 10 ^ (c :: s).length ≤ 2 ^ 64) :
    s.all Char.isDigit = true ∧ a * 10 + (c.toNat - '0'.toNat) < 0x10000000000000000 ∧
      (a * 10 + (c.toNat - '0'.toNat) + 1) * 10 ^ s.length ≤ 2 ^ 64 := by
  simp only [List.all_cons, Bool.and_eq_true] at h
  have hc := digit_lt h.1
  have hrest : (a * 10 + (c.toNat - '0'.toNat) + 1) * 10 ^ s.length ≤ 2 ^ 64 := by
    calc (a * 10 + (c.toNat - '0'.toNat) + 1) * 10 ^ s.length
        ≤ (a + 1) * 10 * 10 ^ s.length := Nat.mul_le_mul_right _ (by omega)
      _ = (a + 1) * 10 ^ (c :: s).length := by rw [List.length_cons, Nat.pow_succ]; ring
      _ ≤ 2 ^ 64 := hfits
  exact ⟨h.2, Nat.lt_of_lt_of_le (Nat.lt_succ_self _)
    (le_trans (Nat.le_mul_of_pos_right _ (Nat.pow_pos (by decide))) hrest), hrest⟩

theorem foldl_whole : ∀ {s : List Char} {a : Nat}, s.all Char.isDigit = true →
    (a + 1) * 10 ^ s.length ≤ 2 ^ 64 →
      (digits s).foldl Digits.whole ⟨a, 0⟩ = ⟨Nat.ofDigitChars 10 s a, 0⟩
  | [], a, _, _ => by simp [digits]
  | c :: s, a, h, hfits => by
    obtain ⟨hs, hlt, hrest⟩ := next_fits h hfits
    have hdigit : Digits.whole ⟨a, 0⟩ (c.toNat - '0'.toNat) =
        ⟨a * 10 + (c.toNat - '0'.toNat), 0⟩ := by
      rw [Digits.whole, if_pos ⟨rfl, hlt⟩]
    rw [digits, List.map_cons, List.foldl_cons, hdigit, ← digits, foldl_whole hs hrest,
      Nat.ofDigitChars_cons, Nat.mul_comm]

theorem fraction_cons (a : Nat) (e : Int) (digit : Nat) (l : List Nat) :
    Digits.fraction ⟨a, e⟩ (digit :: l) =
      if a * 10 + digit < 0x10000000000000000 then Digits.fraction ⟨a * 10 + digit, e - 1⟩ l
      else ⟨a, e⟩ := rfl

theorem fraction_of_fits : ∀ {s : List Char} {a : Nat} {e : Int}, s.all Char.isDigit = true →
    (a + 1) * 10 ^ s.length ≤ 2 ^ 64 →
      Digits.fraction ⟨a, e⟩ (digits s) = ⟨Nat.ofDigitChars 10 s a, e - s.length⟩
  | [], a, e, _, _ => by simp [digits, Digits.fraction]
  | c :: s, a, e, h, hfits => by
    obtain ⟨hs, hlt, hrest⟩ := next_fits h hfits
    rw [digits, List.map_cons, fraction_cons, if_pos hlt, ← digits,
      fraction_of_fits hs hrest, Nat.ofDigitChars_cons, Nat.mul_comm, List.length_cons]
    congr 1
    omega

theorem fraction_bounds : ∀ {l : List Nat} {a : Nat} {e : Int}, a < 2 ^ 64 →
    (Digits.fraction ⟨a, e⟩ l).value < 2 ^ 64 ∧ (Digits.fraction ⟨a, e⟩ l).exponent ≤ e
  | [], a, e, h => ⟨h, Int.le_refl e⟩
  | digit :: l, a, e, h => by
    rw [fraction_cons]
    split
    · rename_i hfits
      obtain ⟨hvalue, hexponent⟩ := fraction_bounds (l := l) (e := e - 1) hfits
      exact ⟨hvalue, by omega⟩
    · exact ⟨h, Int.le_refl e⟩

/-- Where a fraction follows a short whole part, one of its digits counts. -/
theorem ofParts_bounds {whole fraction : List Char} (hwhole : whole.all Char.isDigit = true)
    (hlength : whole.length ≤ 18) (hfraction : fraction.all Char.isDigit = true)
    (hne : fraction ≠ []) :
    (Digits.ofParts (digits whole) (digits fraction)).value < 2 ^ 64 ∧
      (Digits.ofParts (digits whole) (digits fraction)).exponent < 0 := by
  have hpower : 10 ^ whole.length ≤ 10 ^ 18 := Nat.pow_le_pow_right (by decide) hlength
  have hvalue := ofDigitChars_lt (a := 0) hwhole
  rw [Digits.ofParts, foldl_whole hwhole (by omega)]
  generalize Nat.ofDigitChars 10 whole 0 = a at hvalue
  match fraction with
  | [] => exact absurd rfl hne
  | c :: s =>
    simp only [List.all_cons, Bool.and_eq_true] at hfraction
    have hc := digit_lt hfraction.1
    rw [digits, List.map_cons, fraction_cons, if_pos (by omega)]
    obtain ⟨hbound, hexponent⟩ := fraction_bounds
      (l := s.map fun c => c.toNat - '0'.toNat) (a := a * 10 + (c.toNat - '0'.toNat))
      (e := 0 - 1) (by omega)
    exact ⟨hbound, by omega⟩

/-- Digits that all fit make the number that they stand for together. -/
theorem ofParts_of_fits {whole fraction : List Char} (hwhole : whole.all Char.isDigit = true)
    (hfraction : fraction.all Char.isDigit = true) (hlength : (whole ++ fraction).length ≤ 19) :
    Digits.ofParts (digits whole) (digits fraction) =
      ⟨Nat.ofDigitChars 10 (whole ++ fraction) 0, -(fraction.length : Int)⟩ := by
  have hpower : 10 ^ (whole ++ fraction).length ≤ 10 ^ 19 :=
    Nat.pow_le_pow_right (by decide) hlength
  have hsplit : 10 ^ (whole ++ fraction).length = 10 ^ whole.length * 10 ^ fraction.length := by
    rw [List.length_append, Nat.pow_add]
  have hpos : 0 < 10 ^ fraction.length := Nat.pow_pos (by decide)
  have hwhole' : (0 + 1) * 10 ^ whole.length ≤ 2 ^ 64 := by
    have := Nat.le_mul_of_pos_right (10 ^ whole.length) hpos
    omega
  have hfraction' :
      (Nat.ofDigitChars 10 whole 0 + 1) * 10 ^ fraction.length ≤ 2 ^ 64 := by
    have hlt := ofDigitChars_lt (a := 0) hwhole
    calc (Nat.ofDigitChars 10 whole 0 + 1) * 10 ^ fraction.length
        ≤ 10 ^ whole.length * 10 ^ fraction.length := Nat.mul_le_mul_right _ (by omega)
      _ ≤ 2 ^ 64 := by omega
  rw [Digits.ofParts, foldl_whole hwhole hwhole', fraction_of_fits hfraction hfraction',
    Nat.ofDigitChars_append]
  congr 1
  omega

/-! ## Numerals -/

namespace Numeral

theorem isWhole_cons {d : Char} (h : d ≠ '0') (s : List Char) : isWhole (d :: s) = true := by
  unfold isWhole
  split
  · rename_i heq
    cases heq
  · rfl
  · rename_i heq
    cases heq
    exact absurd rfl h
  · rfl

theorem isWhole_writeNat (n : Nat) : isWhole (writeNat n) = true := by
  rcases Nat.eq_zero_or_pos n with rfl | hpos
  · decide
  · obtain ⟨d, s, hds, hd⟩ := writeNat_eq_cons hpos
    rw [hds]
    exact isWhole_cons hd s

/-- Digits before something that starts with no digit. -/
theorem split_digits {w t : List Char} (hw : w.all Char.isDigit = true)
    (ht : t.takeWhile Char.isDigit = []) :
    (w ++ t).takeWhile Char.isDigit = w ∧ (w ++ t).dropWhile Char.isDigit = t := by
  have hdrop : t.dropWhile Char.isDigit = t := by
    conv_rhs => rw [← List.takeWhile_append_dropWhile (p := Char.isDigit) (l := t), ht]
    rfl
  have hall : ∀ c ∈ w, Char.isDigit c = true := List.all_eq_true.1 hw
  rw [List.takeWhile_append_of_pos hall, List.dropWhile_append_of_pos hall, ht, hdrop,
    List.append_nil]
  exact ⟨rfl, rfl⟩

theorem readUnsigned_append (negative : Bool) {w t : List Char} (hw : w.all Char.isDigit = true)
    (hwhole : isWhole w = true) (ht : t.takeWhile Char.isDigit = []) :
    readUnsigned negative (w ++ t) =
      (readTail t).map fun (fraction, exponent) => ⟨negative, w, fraction, exponent⟩ := by
  obtain ⟨htake, hdrop⟩ := split_digits hw ht
  rw [readUnsigned, htake, hdrop, if_pos hwhole]

theorem readTail_point {f t : List Char} (hf : f.all Char.isDigit = true) (hne : f ≠ [])
    (ht : t.takeWhile Char.isDigit = []) :
    readTail ('.' :: (f ++ t)) = (readExponent t).map fun e => (some f, e) := by
  obtain ⟨htake, hdrop⟩ := split_digits hf ht
  rw [readTail, htake, hdrop, if_neg hne]

theorem readUnsigned_writeNat (negative : Bool) (n : Nat) :
    readUnsigned negative (writeNat n) = some ⟨negative, writeNat n, none, none⟩ := by
  have h := readUnsigned_append negative (t := []) (all_isDigit_writeNat n)
    (isWhole_writeNat n) rfl
  rwa [List.append_nil] at h

/-- A minus sign does not start an unsigned numeral. -/
theorem ofText?_of_readUnsigned {s : List Char} {n : Numeral}
    (h : readUnsigned false s = some n) : Numeral.ofText? s = some n := by
  unfold Numeral.ofText?
  split
  · exact absurd h (by simp [readUnsigned, isWhole])
  · exact h

end Numeral

/-! ## The characters of a numeral -/

def isNumeralChar (c : Char) : Bool := c.isDigit || ['-', '+', '.', 'e', 'E'].contains c

theorem isNumeralChar_of_isDigit {c : Char} (h : c.isDigit = true) : isNumeralChar c = true := by
  rw [isNumeralChar, h, Bool.true_or]

theorem isNumeralChar_of_readNat? {s : List Char} {n : Nat} (h : readNat? s = some n) :
    ∀ c ∈ s, isNumeralChar c = true := by
  unfold readNat? at h
  split at h
  · rename_i hs
    exact fun c hc => isNumeralChar_of_isDigit (List.all_eq_true.1 hs.2 c hc)
  · cases h

theorem isNumeralChar_of_readInt? {s : List Char} {n : Int} (h : readInt? s = some n) :
    ∀ c ∈ s, isNumeralChar c = true := by
  unfold readInt? at h
  split at h <;> obtain ⟨_, h, _⟩ := Option.map_eq_some_iff.1 h <;>
    obtain ⟨n, hn, _⟩ := Option.bind_eq_some_iff.1 h
  · exact List.forall_mem_cons.2 ⟨rfl, isNumeralChar_of_readNat? hn⟩
  · exact List.forall_mem_cons.2 ⟨rfl, isNumeralChar_of_readNat? hn⟩
  · exact isNumeralChar_of_readNat? hn

namespace Numeral

theorem isNumeralChar_of_readExponent {s : List Char} {e : Option Int}
    (h : readExponent s = some e) : ∀ c ∈ s, isNumeralChar c = true := by
  unfold readExponent at h
  split at h
  · exact fun c hc => absurd hc (by simp)
  · rename_i c s
    split at h
    · rename_i hc
      obtain ⟨k, hk, _⟩ := Option.map_eq_some_iff.1 h
      refine List.forall_mem_cons.2 ⟨?_, isNumeralChar_of_readInt? hk⟩
      rcases hc with rfl | rfl <;> rfl
    · cases h

/-- Digits and what follows them, from their properties. -/
theorem isNumeralChar_of_dropWhile {s : List Char}
    (h : ∀ c ∈ s.dropWhile Char.isDigit, isNumeralChar c = true) :
    ∀ c ∈ s, isNumeralChar c = true := by
  intro c hc
  rw [← List.takeWhile_append_dropWhile (p := Char.isDigit) (l := s), List.mem_append] at hc
  rcases hc with hc | hc
  · exact isNumeralChar_of_isDigit (List.mem_takeWhile_imp hc)
  · exact h c hc

theorem isNumeralChar_of_readTail {s : List Char} {t : Option (List Char) × Option Int}
    (h : readTail s = some t) : ∀ c ∈ s, isNumeralChar c = true := by
  unfold readTail at h
  split at h
  · split at h
    · cases h
    · obtain ⟨e, he, _⟩ := Option.map_eq_some_iff.1 h
      exact List.forall_mem_cons.2
        ⟨rfl, isNumeralChar_of_dropWhile (isNumeralChar_of_readExponent he)⟩
  · obtain ⟨e, he, _⟩ := Option.map_eq_some_iff.1 h
    exact isNumeralChar_of_readExponent he

theorem isNumeralChar_of_readUnsigned {negative : Bool} {s : List Char} {n : Numeral}
    (h : readUnsigned negative s = some n) : ∀ c ∈ s, isNumeralChar c = true := by
  unfold readUnsigned at h
  simp only at h
  split at h
  · obtain ⟨t, ht, _⟩ := Option.map_eq_some_iff.1 h
    exact isNumeralChar_of_dropWhile (isNumeralChar_of_readTail ht)
  · cases h

end Numeral

theorem isNumeralChar_of_ofText? {s : List Char} {n : Number} (h : Number.ofText? s = some n) :
    ∀ c ∈ s, isNumeralChar c = true := by
  obtain ⟨numeral, hread, _⟩ := Option.bind_eq_some_iff.1 h
  unfold Numeral.ofText? at hread
  split at hread
  · exact List.forall_mem_cons.2 ⟨rfl, Numeral.isNumeralChar_of_readUnsigned hread⟩
  · exact Numeral.isNumeralChar_of_readUnsigned hread

/-! ## Integers -/

theorem ofText?_integer {value : Int} {lower : -0x8000000000000000 ≤ value}
    {upper : value < 0x10000000000000000} :
    Number.ofText? (Number.integer value lower upper).text =
      some (.integer value lower upper) := by
  rw [Number.ofText?, Number.text]
  cases value with
  | ofNat n =>
    have hlt : n < 0x10000000000000000 := Int.ofNat_lt.1 upper
    rw [writeInt, Numeral.ofText?_of_readUnsigned (Numeral.readUnsigned_writeNat false n),
      Option.bind_some]
    unfold Numeral.number?
    simp [writeNat, hlt]
  | negSucc n =>
    have hle : n + 1 ≤ 0x8000000000000000 := by omega
    rw [writeInt, Numeral.ofText?, Numeral.readUnsigned_writeNat, Option.bind_some]
    unfold Numeral.number?
    simp [writeNat, hle, Int.negSucc_eq]

/-! ## Doubles -/

theorem exists_ofScaled? {v : Nat} {e : Int} (h : Binary64.scaledMagnitude v e < Binary64.infinite)
    (negative : Bool) : ∃ x, Binary64.ofScaled? negative v e = some x := by
  rw [Binary64.ofScaled?, dif_pos h]
  exact ⟨_, rfl⟩

/-- A short whole part with a fraction is read as a finite number. -/
theorem number?_of_point (negative : Bool) {w f : List Char} (hw : w.all Char.isDigit = true)
    (hwhole : Numeral.isWhole w = true) (hlength : w.length ≤ 18)
    (hf : f.all Char.isDigit = true) (hne : f ≠ []) :
    ∃ n x, Numeral.readUnsigned negative (w ++ '.' :: f) = some n ∧ n.number? = some x := by
  have hread : Numeral.readUnsigned negative (w ++ '.' :: f) =
      some ⟨negative, w, some f, none⟩ := by
    have htail := Numeral.readTail_point (t := []) hf hne rfl
    rw [List.append_nil] at htail
    rw [Numeral.readUnsigned_append negative hw hwhole (by simp), htail]
    rfl
  obtain ⟨hvalue, hexponent⟩ := ofParts_bounds hw hlength hf hne
  obtain ⟨k, hk⟩ : ∃ k, (Digits.ofParts (digits w) (digits f)).exponent = .negSucc k :=
    Int.eq_negSucc_of_lt_zero hexponent
  obtain ⟨x, hx⟩ := exists_ofScaled? (Binary64.scaledMagnitude_negSucc_lt hvalue k) negative
  refine ⟨_, .double x, hread, ?_⟩
  rw [Numeral.number?, if_neg (by simp), Numeral.double?]
  simp only [Option.getD_some, Option.getD_none, Int.add_zero, hk, hx, Option.map_some]

theorem positional_eq {d : Char} {s : List Char} (hd : d ≠ '0')
    (hdigits : (d :: s).all Char.isDigit = true) {point : Int} (hpoint : point ≤ 16) :
    ∃ w f, positional (d :: s) point = w ++ '.' :: f ∧ w.all Char.isDigit = true ∧
      Numeral.isWhole w = true ∧ w.length ≤ 18 ∧ f.all Char.isDigit = true ∧ f ≠ [] := by
  have hzeros : ∀ k, (List.replicate k '0').all Char.isDigit = true := fun k =>
    List.all_eq_true.2 fun c hc => List.eq_of_mem_replicate hc ▸ rfl
  unfold positional
  split
  · rename_i k
    refine ⟨['0'], List.replicate (k + 1) '0' ++ d :: s, rfl, rfl, rfl, by decide, ?_, by simp⟩
    rw [List.all_append, hzeros, hdigits]
    rfl
  · exact ⟨['0'], d :: s, rfl, rfl, rfl, by decide, hdigits, by simp⟩
  · rename_i n hn
    have hle : n ≤ 16 := Int.ofNat_le.1 hpoint
    split
    · rename_i hshort
      refine ⟨d :: s ++ List.replicate (n - (d :: s).length) '0', ['0'], by simp, ?_,
        Numeral.isWhole_cons hd _, ?_, rfl, by simp⟩
      · rw [List.all_append, hzeros, hdigits]
        rfl
      · rw [List.length_append, List.length_replicate]
        omega
    · rename_i hlong
      obtain ⟨k, rfl⟩ : ∃ k, n = k + 1 := Nat.exists_eq_succ_of_ne_zero fun h => hn (h ▸ rfl)
      have hall := List.all_eq_true.1 hdigits
      refine ⟨(d :: s).take (k + 1), (d :: s).drop (k + 1), rfl, ?_, ?_, ?_, ?_, ?_⟩
      · exact List.all_eq_true.2 fun c hc => hall c (List.mem_of_mem_take hc)
      · exact Numeral.isWhole_cons hd _
      · rw [List.length_take]
        omega
      · exact List.all_eq_true.2 fun c hc => hall c (List.mem_of_mem_drop hc)
      · rw [ne_eq, List.drop_eq_nil_iff]
        exact hlong

/-- The text of an exponent, with its letter and its sign. -/
def exponentText : Int → List Char
  | .ofNat n => 'e' :: '+' :: writeNat n
  | .negSucc n => 'e' :: '-' :: writeNat (n + 1)

theorem scientific_cons (d : Char) (s : List Char) (point : Int) :
    scientific (d :: s) point =
      [d] ++ ((if s = [] then [] else '.' :: s) ++ exponentText (point - 1)) := by
  unfold scientific exponentText
  simp only
  cases s <;> cases point - 1 <;> rfl

theorem readExponent_exponentText (e : Int) :
    Numeral.readExponent (exponentText e) = some (some e) := by
  cases e with
  | ofNat n => simp [exponentText, Numeral.readExponent, readInt?_plus]
  | negSucc n =>
    have h := readInt?_writeInt (.negSucc n)
    rw [writeInt] at h
    simp [exponentText, Numeral.readExponent, h]

theorem readTail_exponentText (e : Int) :
    Numeral.readTail (exponentText e) = some (none, some e) := by
  have htail : Numeral.readTail (exponentText e) =
      (Numeral.readExponent (exponentText e)).map fun e => (none, e) := by cases e <;> rfl
  rw [htail, readExponent_exponentText]
  rfl

theorem readUnsigned_scientific (negative : Bool) {d : Char} {s : List Char} (hd : d ≠ '0')
    (hdigits : (d :: s).all Char.isDigit = true) (point : Int) :
    Numeral.readUnsigned negative (scientific (d :: s) point) =
      some ⟨negative, [d], if s = [] then none else some s, some (point - 1)⟩ := by
  simp only [List.all_cons, Bool.and_eq_true] at hdigits
  have hd' : [d].all Char.isDigit = true := by simp [hdigits.1]
  have hwhole := Numeral.isWhole_cons hd []
  have hstart : (exponentText (point - 1)).takeWhile Char.isDigit = [] := by
    cases point - 1 <;> rfl
  rw [scientific_cons]
  cases s with
  | nil =>
    rw [if_pos rfl, if_pos rfl, List.nil_append,
      Numeral.readUnsigned_append negative hd' hwhole hstart, readTail_exponentText]
    rfl
  | cons c s =>
    rw [if_neg (by simp), if_neg (by simp),
      Numeral.readUnsigned_append negative hd' hwhole (by simp), List.cons_append,
      Numeral.readTail_point hdigits.2 (by simp) hstart, readExponent_exponentText]
    rfl

theorem number?_of_scientific (negative : Bool) {d : Char} {s : List Char}
    (hdigits : (d :: s).all Char.isDigit = true) (hlength : (d :: s).length ≤ 19) {e : Int}
    (h : Binary64.scaledMagnitude (Nat.ofDigitChars 10 (d :: s) 0) e < Binary64.infinite) :
    ∃ x, Numeral.number? ⟨negative, [d], if s = [] then none else some s,
      some (e + (d :: s).length - 1)⟩ = some x := by
  obtain ⟨x, hx⟩ := exists_ofScaled? h negative
  simp only [List.all_cons, Bool.and_eq_true] at hdigits
  have hd : [d].all Char.isDigit = true := by simp [hdigits.1]
  have hparts := ofParts_of_fits hd hdigits.2 hlength
  have hfraction : (if s = [] then none else some s).getD [] = s := by
    split
    · rename_i hs
      exact hs.symm
    · rfl
  refine ⟨.double x, ?_⟩
  rw [Numeral.number?, if_neg (by simp), Numeral.double?]
  simp only [hfraction, hparts, Option.getD_some, List.singleton_append]
  have he : -(s.length : Int) + (e + (d :: s).length - 1) = e := by
    rw [List.length_cons]
    omega
  rw [he, hx]
  rfl

theorem readUnsigned_magnitudeText {m : Nat} (hm : m < Binary64.infinite) (negative : Bool) :
    ∃ n x, Numeral.readUnsigned negative (magnitudeText m) = some n ∧ n.number? = some x := by
  unfold magnitudeText
  split
  · exact number?_of_point negative (w := ['0']) (f := ['0']) rfl rfl (by decide) rfl (by simp)
  · rename_i hne
    have hpos := Nat.pos_of_ne_zero hne
    have hfinite := Binary64.scaledMagnitude_shortest_lt hpos hm
    have hlt := Binary64.shortest_lt hpos hm
    have hdigits := all_isDigit_writeNat (Binary64.shortest m).1
    have hvalue : Nat.ofDigitChars 10 (writeNat (Binary64.shortest m).1) 0 =
        (Binary64.shortest m).1 := Nat.ofDigitChars_ten_toDigits
    have hlength : (writeNat (Binary64.shortest m).1).length ≤ 18 :=
      (Nat.length_toDigits_le_iff (by decide) (by decide)).2 (hlt.trans (by decide))
    obtain ⟨d, s, hds, hd⟩ := writeNat_eq_cons (Binary64.shortest_pos hpos)
    simp only
    rw [hds] at hdigits hvalue hlength ⊢
    split
    · rename_i hpoint
      obtain ⟨w, f, heq, hw, hwhole, hlength, hf, hne⟩ := positional_eq hd hdigits hpoint.2
      rw [heq]
      exact number?_of_point negative hw hwhole hlength hf hne
    · rw [← hvalue] at hfinite
      obtain ⟨x, hx⟩ := number?_of_scientific negative hdigits (by omega) hfinite
      exact ⟨_, x, readUnsigned_scientific negative hd hdigits _, hx⟩

/-- The text of a number is read as a number. -/
theorem exists_ofText?_text (n : Number) : ∃ x, Number.ofText? n.text = some x := by
  cases n with
  | integer value lower upper => exact ⟨_, ofText?_integer⟩
  | double x =>
    obtain ⟨n, y, hread, hy⟩ := readUnsigned_magnitudeText x.finite x.negative
    refine ⟨y, ?_⟩
    rw [Number.ofText?, Number.text]
    cases hsign : x.negative with
    | true =>
      rw [hsign] at hread
      rw [if_pos rfl, Numeral.ofText?, hread]
      exact hy
    | false =>
      rw [hsign] at hread
      rw [if_neg (by simp), Numeral.ofText?_of_readUnsigned hread]
      exact hy

/-- The number that the text of a number stands for. -/
def Number.reread (n : Number) : Number := (Number.ofText? n.text).getD n

theorem ofText?_text (n : Number) : Number.ofText? n.text = some n.reread := by
  obtain ⟨x, hx⟩ := exists_ofText?_text n
  rw [Number.reread, hx]
  rfl

end Json

end LayerOverrides
