import LayerOverrides.Configuration.CopyName
import Mathlib.Data.List.Basic
import Mathlib.Data.List.TakeWhile

/-!
# When the name of a copy is in use already

A name is taken apart at the last ` (digits)` in it, unless there is a line break in front of that
(`cut?_eq_some_iff`), so a numbered name gives back its base and its number as long as the base
has no line break (`ofName_numbered`).  The number of a copy is then greater than all that are in
use for the base, but for the greatest number of 32 bits, which has none after it.  With a line
break in the base no numbered name belongs to it, and the second copy gets the number of the first.
These are the two ways in which the name of a copy can be in use (`fresh_mem_iff`).
-/

namespace LayerOverrides

namespace CopyName

theorem dropWhile_isDigit_append {digits : List Char} (h : digits.all Char.isDigit = true)
    (rest : List Char) :
    (digits.reverse ++ '(' :: rest).takeWhile Char.isDigit = digits.reverse ∧
      (digits.reverse ++ '(' :: rest).dropWhile Char.isDigit = '(' :: rest := by
  have hall : ∀ c ∈ digits.reverse, c.isDigit = true := fun c hc =>
    List.all_eq_true.1 h c (List.mem_reverse.1 hc)
  have hbracket : ('(').isDigit = false := by decide
  constructor
  · rw [List.takeWhile_append_of_pos hall, List.takeWhile_cons_of_neg (by simp [hbracket]),
      List.append_nil]
  · rw [List.dropWhile_append_of_pos hall, List.dropWhile_cons_of_neg (by simp [hbracket])]

theorem cut?_eq_some_iff {name base digits : List Char} :
    cut? name = some (base, digits) ↔ '\n' ∉ base ∧ digits.all Char.isDigit = true ∧
      name = base ++ ' ' :: '(' :: digits ++ [')'] := by
  constructor
  · intro h
    unfold cut? at h
    split at h
    · rename_i rest hname
      split at h
      · rename_i front hrest
        split at h
        · simp at h
        rename_i hbreak
        simp only [Option.some.injEq, Prod.mk.injEq] at h
        obtain ⟨rfl, rfl⟩ := h
        have hsplit : rest = rest.takeWhile Char.isDigit ++ '(' :: ' ' :: front := by
          rw [← hrest, List.takeWhile_append_dropWhile]
        refine ⟨by simpa using hbreak, ?_, ?_⟩
        · rw [List.all_eq_true]
          intro c hc
          exact List.mem_takeWhile_imp (List.mem_reverse.1 hc)
        · rw [← List.reverse_reverse name, hname]
          conv_lhs => rw [hsplit]
          simp
      · simp at h
    · simp at h
  · rintro ⟨hbreak, hdigits, rfl⟩
    have hreverse : (base ++ ' ' :: '(' :: digits ++ [')']).reverse =
        ')' :: (digits.reverse ++ '(' :: ' ' :: base.reverse) := by simp
    obtain ⟨htake, hdrop⟩ := dropWhile_isDigit_append hdigits (' ' :: base.reverse)
    unfold cut?
    simp only [hreverse, hdrop, htake, List.mem_reverse, if_neg hbreak, List.reverse_reverse]

theorem ofName_cases (name : String) :
    ofName name = ⟨name, none⟩ ∨ ∃ base digits n, cut? name.toList = some (base, digits) ∧
      Text.readNat? digits = some n ∧ 0 < n ∧ n < 0x100000000 ∧
        ofName name = ⟨String.ofList base, some (UInt32.ofNat n)⟩ := by
  unfold ofName
  split
  · exact .inl rfl
  · rename_i base digits hcut
    split
    · exact .inl rfl
    · rename_i n hread
      split_ifs with hn
      · exact .inr ⟨base, digits, n, hcut, hread, hn.1, hn.2, rfl⟩
      · exact .inl rfl

theorem ofName_of_cut? {name base : String} {digits : List Char} {n : UInt32}
    (hcut : cut? name.toList = some (base.toList, digits))
    (hread : Text.readNat? digits = some n.toNat) (hn : 0 < n.toNat) :
    ofName name = ⟨base, some n⟩ := by
  have hlt := n.toNat_lt
  unfold ofName
  simp only [hcut, hread]
  rw [if_pos ⟨hn, by omega⟩, String.ofList_toList, UInt32.ofNat_toNat]

/-- The number of a numbered name is read back, unless there is a line break in front of it. -/
theorem ofName_numbered {base : String} (hbase : '\n' ∉ base.toList) {n : UInt32}
    (hn : 0 < n.toNat) : ofName (numbered base n) = ⟨base, some n⟩ := by
  have hdigits : (Text.writeNat n.toNat).all Char.isDigit = true := by
    rw [List.all_eq_true]
    intro c hc
    exact Text.isDigit_of_mem_writeNat hc
  refine ofName_of_cut? (cut?_eq_some_iff.2 ⟨hbase, hdigits, ?_⟩) (Text.readNat?_writeNat _) hn
  simp [numbered]

/-- A line break in a name is one in its base, and then the base is all of it. -/
theorem ofName_of_lineBreak {name : String} (h : '\n' ∈ name.toList) :
    ofName name = ⟨name, none⟩ := by
  rcases ofName_cases name with hname | ⟨base, digits, n, hcut, -⟩
  · exact hname
  · obtain ⟨hbase, hdigits, hname⟩ := cut?_eq_some_iff.1 hcut
    rw [hname] at h
    simp only [List.append_assoc, List.cons_append, List.mem_append, List.mem_cons,
      List.not_mem_nil, or_false] at h
    rcases h with h | h | h | h | h
    · exact absurd h hbase
    · exact absurd h (by decide)
    · exact absurd h (by decide)
    · exact absurd (List.all_eq_true.1 hdigits _ h) (by decide)
    · exact absurd h (by decide)

theorem eq_of_base_lineBreak {name : String} (h : '\n' ∈ (ofName name).base.toList) :
    (ofName name).base = name := by
  rcases ofName_cases name with hname | ⟨base, digits, n, hcut, -, -, -, hname⟩
  · rw [hname]
  · rw [hname, String.toList_ofList] at h
    exact absurd h (cut?_eq_some_iff.1 hcut).1

theorem mem_numbersOf {base : String} {names : List String} {n : UInt32} :
    n ∈ numbersOf base names ↔
      ∃ name ∈ names, (ofName name).base = base ∧ (ofName name).number.getD 1 = n := by
  simp only [numbersOf, List.mem_filterMap]
  refine exists_congr fun name => and_congr_right fun _ => ?_
  split_ifs with h <;> simp [h]

theorem mem_numbersOf_numbered {base : String} (hbase : '\n' ∉ base.toList) {n : UInt32}
    (hn : 0 < n.toNat) {names : List String} (h : numbered base n ∈ names) :
    n ∈ numbersOf base names := by
  rw [mem_numbersOf]
  refine ⟨_, h, ?_⟩
  rw [ofName_numbered hbase hn]
  exact ⟨rfl, rfl⟩

/-- The greatest number is one of the numbers, and none of them is greater. -/
theorem foldl_max_spec : ∀ (numbers : List UInt32) (n : UInt32),
    numbers.foldl max n ∈ n :: numbers ∧
      ∀ m ∈ n :: numbers, m.toNat ≤ (numbers.foldl max n).toNat
  | [], n => by simp
  | k :: numbers, n => by
    obtain ⟨hmem, hle⟩ := foldl_max_spec numbers (max n k)
    have hmax := UInt32.toNat_max n k
    have hcases : max n k = n ∨ max n k = k := by
      rw [UInt32.max_def]
      split_ifs <;> simp
    have hfirst := hle (max n k) List.mem_cons_self
    rw [List.foldl_cons]
    constructor
    · rcases List.mem_cons.1 hmem with h | h
      · rw [h]
        rcases hcases with h | h <;> rw [h] <;> simp
      · simp [h]
    · intro m hm
      simp only [List.mem_cons] at hm
      rcases hm with rfl | rfl | hm
      · omega
      · omega
      · exact hle m (List.mem_cons_of_mem _ hm)

/-- Only the greatest number of 32 bits is not followed by a greater one. -/
theorem toNat_next (n : UInt32) :
    (next n).toNat = if n = 0xffffffff then 0xffffffff else n.toNat + 1 := by
  have hlt := n.toNat_lt
  unfold next
  split_ifs with h hn hn
  · subst hn
    exact absurd h (by decide)
  · rw [UInt32.toNat_add]
    simp only [UInt32.toNat_one]
    omega
  · rw [hn]
    rfl
  · exact absurd (UInt32.toNat_inj.1 (by simp only [UInt32.reduceToNat]; omega)) hn

/-- The names that leave none for a copy: the one with the greatest number, or where the base has a
line break, it and its second name. -/
def NoneLeft (existing : List String) (requested : String) : Prop :=
  if '\n' ∈ requested.toList then requested ∈ existing ∧ numbered requested 2 ∈ existing
  else numbered (ofName requested).base 0xffffffff ∈ existing

theorem fresh_of_nil {existing : List String} {requested : String}
    (h : numbersOf (ofName requested).base existing = []) :
    fresh existing requested = requested := by
  simp only [fresh, h]

theorem fresh_of_cons {existing : List String} {requested : String} {n : UInt32}
    {numbers : List UInt32} (h : numbersOf (ofName requested).base existing = n :: numbers) :
    fresh existing requested =
      numbered (ofName requested).base (next (numbers.foldl max n)) := by
  simp only [fresh, h]

theorem numbersOf_ne_nil {existing : List String} {requested : String}
    (h : requested ∈ existing) : numbersOf (ofName requested).base existing ≠ [] :=
  List.ne_nil_of_mem (mem_numbersOf.2 ⟨requested, h, rfl, rfl⟩)

/-- The numbers that are in use for a base with a line break are all the first. -/
theorem numbersOf_of_lineBreak {base : String} (hbase : '\n' ∈ base.toList)
    {existing : List String} {n : UInt32} (h : n ∈ numbersOf base existing) :
    base ∈ existing ∧ n = 1 := by
  obtain ⟨name, hname, rfl, rfl⟩ := mem_numbersOf.1 h
  have heq := eq_of_base_lineBreak hbase
  rw [heq] at hbase ⊢
  rw [ofName_of_lineBreak hbase]
  exact ⟨hname, rfl⟩

theorem fresh_mem_of_lineBreak {existing : List String} {requested : String}
    (hbreak : '\n' ∈ requested.toList) :
    fresh existing requested ∈ existing ↔
      requested ∈ existing ∧ numbered requested 2 ∈ existing := by
  have hbase : (ofName requested).base = requested := by rw [ofName_of_lineBreak hbreak]
  cases hnumbers : numbersOf (ofName requested).base existing with
  | nil =>
    have hne : requested ∉ existing := fun hmem => numbersOf_ne_nil hmem hnumbers
    rw [fresh_of_nil hnumbers]
    simp [hne]
  | cons n numbers =>
    have hfirst : ∀ m ∈ n :: numbers, requested ∈ existing ∧ m = 1 := by
      intro m hm
      rw [← hnumbers, hbase] at hm
      exact numbersOf_of_lineBreak hbreak hm
    have hmax := (hfirst _ (foldl_max_spec numbers n).1).2
    have hnext : next 1 = 2 := by decide
    rw [fresh_of_cons hnumbers, hbase, hmax, hnext]
    simp [(hfirst n List.mem_cons_self).1]

theorem fresh_mem_of_not_lineBreak {existing : List String} {requested : String}
    (hbreak : '\n' ∉ requested.toList) :
    fresh existing requested ∈ existing ↔
      numbered (ofName requested).base 0xffffffff ∈ existing := by
  have hbase : '\n' ∉ (ofName requested).base.toList := by
    intro h
    rw [eq_of_base_lineBreak h] at h
    exact hbreak h
  cases hnumbers : numbersOf (ofName requested).base existing with
  | nil =>
    have hne : requested ∉ existing := fun hmem => numbersOf_ne_nil hmem hnumbers
    have hlast : numbered (ofName requested).base 0xffffffff ∉ existing := by
      intro hmem
      have := mem_numbersOf_numbered hbase (by decide) hmem
      rw [hnumbers] at this
      exact absurd this (by simp)
    rw [fresh_of_nil hnumbers]
    simp [hne, hlast]
  | cons n numbers =>
    have hle := (foldl_max_spec numbers n).2
    have hnext := toNat_next (numbers.foldl max n)
    -- a numbered name in use has a number, so it is not past the greatest
    have hused : ∀ m : UInt32, 0 < m.toNat → numbered (ofName requested).base m ∈ existing →
        m.toNat ≤ (numbers.foldl max n).toNat := fun m hm h =>
      hle m (hnumbers ▸ mem_numbersOf_numbered hbase hm h)
    rw [fresh_of_cons hnumbers]
    constructor
    · intro h
      have hlt := hused _ (by rw [hnext]; split_ifs <;> omega) h
      rw [hnext] at hlt
      split_ifs at hlt with hlast
      · rw [hlast] at h
        exact h
      · exact absurd hlt (by omega)
    · intro h
      have hlt := hused 0xffffffff (by decide) h
      have hlast : numbers.foldl max n = 0xffffffff := by
        refine UInt32.toNat_inj.1 ?_
        have := (numbers.foldl max n).toNat_lt
        simp only [UInt32.reduceToNat] at hlt ⊢
        omega
      rw [hlast]
      exact h

theorem fresh_mem_iff (existing : List String) (requested : String) :
    fresh existing requested ∈ existing ↔ NoneLeft existing requested := by
  unfold NoneLeft
  split_ifs with hbreak
  · exact fresh_mem_of_lineBreak hbreak
  · exact fresh_mem_of_not_lineBreak hbreak

end CopyName

open CopyName

/-- A new name, and so the name of a copy, is none of those in use, unless they leave none. -/
theorem duplicate_name_mem_iff (existing : List String) (requested : String) (c : Configuration)
    (others : List Configuration) :
    (fresh existing requested ∈ existing ↔ NoneLeft existing requested) ∧
      ((c.duplicate others).name ∈ others.map Configuration.name ↔
        NoneLeft (others.map Configuration.name) c.name) :=
  ⟨fresh_mem_iff existing requested, fresh_mem_iff (others.map Configuration.name) c.name⟩

/-- The two ways to meet a name in use: the numbers have run out, and a line break in the base. -/
theorem fresh_mem_lastNumber_lineBreak :
    fresh ["Foo (4294967295)"] "Foo" ∈ ["Foo (4294967295)"] ∧
      fresh ["a\nb", "a\nb (2)"] "a\nb" ∈ ["a\nb", "a\nb (2)"] := by
  constructor <;> decide +kernel

end LayerOverrides
