import Mathlib.Data.List.Basic
import Mathlib.Tactic.SplitIfs

/-!
# The order of texts is that of their bytes

The encoding of a character comes before that of a greater one, whatever follows them
(`encode_append_lt`): a longer encoding begins with a greater byte, and two of one length have the
digits of the characters to the base 64, from the highest on.  So texts in order have
bytes in order (`bytes_lt_bytes`).
-/

namespace LayerOverrides.Text

theorem ofNat_lt_ofNat {m n : Nat} (hm : m < 256) (hn : n < 256) :
    UInt8.ofNat m < UInt8.ofNat n ↔ m < n := by
  rw [UInt8.lt_iff_toNat_lt, UInt8.toNat_ofNat', UInt8.toNat_ofNat', Nat.mod_eq_of_lt hm,
    Nat.mod_eq_of_lt hn]

theorem ofNat_inj {m n : Nat} (hm : m < 256) (hn : n < 256) :
    UInt8.ofNat m = UInt8.ofNat n ↔ m = n := by
  rw [← UInt8.toNat_inj, UInt8.toNat_ofNat', UInt8.toNat_ofNat', Nat.mod_eq_of_lt hm,
    Nat.mod_eq_of_lt hn]

/-- The digits of a number to the base 64. -/
structure Digits (n a b c d : Nat) : Prop where
  bounds : a < 8 ∧ b < 64 ∧ c < 64 ∧ d < 64
  value : n = 262144 * a + 4096 * b + 64 * c + d

theorem digits {n : Nat} (h : n < 0x110000) :
    Digits n (n / 262144) (n / 4096 % 64) (n / 64 % 64) (n % 64) where
  bounds := by omega
  value := by omega

/-- The parts that the encodings of characters take of a number. -/
theorem Digits.parts {n a b c d : Nat} (h : Digits n a b c d) :
    n / 262144 % 8 = a ∧ n / 4096 % 64 = b ∧ n / 64 % 64 = c ∧ n % 64 = d ∧
      n / 4096 % 16 = b % 16 ∧ n / 64 % 32 = c % 32 := by
  obtain ⟨hbounds, rfl⟩ := h
  omega

/-- The encoding of the smaller character comes first, whatever follows. -/
theorem encode_append_lt {c d : Char} (h : c < d) (x y : List UInt8) :
    String.utf8EncodeChar c ++ x < String.utf8EncodeChar d ++ y := by
  have hlt : c.val.toNat < d.val.toNat := h
  have hvalid : d.val.toNat < 0x110000 := by
    rcases d.valid with hd | hd
    · exact Nat.lt_trans hd (by decide)
    · exact hd.2
  have hc := digits (Nat.lt_trans hlt hvalid)
  have hd := digits hvalid
  unfold String.utf8EncodeChar
  generalize d.val.toNat = n at *
  generalize c.val.toNat = m at *
  generalize m / 262144 = a, m / 4096 % 64 = b, m / 64 % 64 = c, m % 64 = d at hc
  generalize n / 262144 = a', n / 4096 % 64 = b', n / 64 % 64 = c', n % 64 = d' at hd
  simp only [hc.parts, hd.parts]
  obtain ⟨hbounds, hm⟩ := hc
  obtain ⟨hbounds', hn⟩ := hd
  split_ifs <;> simp (disch := omega) only [List.cons_append, List.nil_append,
    List.cons_lt_cons_iff, ofNat_lt_ofNat, ofNat_inj] <;> omega

/-- The bytes of a text. -/
def bytes (s : String) : List UInt8 := s.toByteArray.data.toList

theorem bytes_eq_flatMap (s : String) : bytes s = s.toList.flatMap String.utf8EncodeChar := by
  conv => lhs; rw [← String.ofList_toList (s := s)]
  simp [bytes, List.utf8Encode, -String.ofList_toList]

theorem flatMap_encode_lt : ∀ {l l' : List Char}, l < l' →
    l.flatMap String.utf8EncodeChar < l'.flatMap String.utf8EncodeChar
  | _, [], h => absurd h (List.not_lt_nil _)
  | [], d :: l', _ => by
    rw [List.flatMap_cons]
    cases h : String.utf8EncodeChar d with
    | nil => exact absurd h String.utf8EncodeChar_ne_nil
    | cons b bs => exact List.nil_lt_cons _ _
  | c :: l, d :: l', h => by
    rw [List.flatMap_cons, List.flatMap_cons]
    rcases List.cons_lt_cons_iff.1 h with hlt | ⟨rfl, hl⟩
    · exact encode_append_lt hlt _ _
    · exact List.append_left_lt (flatMap_encode_lt hl)

theorem bytes_lt_bytes {s s' : String} (h : s < s') : bytes s < bytes s' := by
  rw [bytes_eq_flatMap, bytes_eq_flatMap]
  exact flatMap_encode_lt h

end LayerOverrides.Text
