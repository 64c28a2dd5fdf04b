/-!
# Decimal numerals

Whole numbers as ASCII digits, with an optional sign for integers. Reading takes leading zeros;
writing produces none. Main statements: what is written reads back
([readNat?_writeNat], [readInt?_writeInt]).
-/

namespace LayerOverrides.Text

/-- The number a non-empty text of ASCII digits stands for. -/
def readNat? (s : List Char) : Option Nat :=
  if s ≠ [] ∧ s.all Char.isDigit = true then some (Nat.ofDigitChars 10 s 0) else none

/-- A number with an optional sign in front. -/
def readInt? : List Char → Option Int
  | '-' :: s => (readNat? s).map fun n => -(n : Int)
  | '+' :: s => (readNat? s).map fun n => (n : Int)
  | s => (readNat? s).map fun n => (n : Int)

def writeNat (n : Nat) : List Char := Nat.toDigits 10 n

def writeInt : Int → List Char
  | .ofNat n => writeNat n
  | .negSucc n => '-' :: writeNat (n + 1)

theorem isDigit_of_mem_writeNat {n : Nat} {c : Char} (h : c ∈ writeNat n) : c.isDigit = true :=
  Nat.isDigit_of_mem_toDigits (by decide) (by decide) h

theorem writeNat_ne_nil (n : Nat) : writeNat n ≠ [] := by
  unfold writeNat
  rw [Nat.toDigits_eq_if (by decide)]
  split <;> simp

theorem readNat?_writeNat (n : Nat) : readNat? (writeNat n) = some n := by
  have h : (writeNat n).all Char.isDigit = true :=
    List.all_eq_true.2 fun _ hc => isDigit_of_mem_writeNat hc
  rw [readNat?, if_pos ⟨writeNat_ne_nil n, h⟩, writeNat, Nat.ofDigitChars_ten_toDigits]

theorem readInt?_of_all_digits {s : List Char} (h : s.all Char.isDigit = true) :
    readInt? s = (readNat? s).map fun n => (n : Int) := by
  match s with
  | [] => rfl
  | c :: s =>
    have hc : c.isDigit = true := List.all_eq_true.1 h c (by simp)
    unfold readInt?
    split
    · rename_i heq
      simp only [List.cons.injEq] at heq
      rw [heq.1] at hc
      exact absurd hc (by decide)
    · rename_i heq
      simp only [List.cons.injEq] at heq
      rw [heq.1] at hc
      exact absurd hc (by decide)
    · rfl

theorem readInt?_writeInt (n : Int) : readInt? (writeInt n) = some n := by
  cases n with
  | ofNat n =>
    have h : (writeNat n).all Char.isDigit = true :=
      List.all_eq_true.2 fun _ hc => isDigit_of_mem_writeNat hc
    rw [writeInt, readInt?_of_all_digits h, readNat?_writeNat]
    rfl
  | negSucc n =>
    rw [writeInt, readInt?, readNat?_writeNat]
    rfl

end LayerOverrides.Text
