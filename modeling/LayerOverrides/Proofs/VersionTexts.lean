import LayerOverrides.Version
import LayerOverrides.Proofs.Numerals
import Mathlib.Data.List.Forall2
import Mathlib.Data.List.TakeWhile

/-!
# Texts of versions

A version text is a body and behind it, from the first `-` or `+` on, anything.  The body is cut at
its points, and its first three parts, or all if there are fewer, are numerals between blanks
(`Version.IsText`).  These are the texts that are read, as the version whose numbers they give
(`Version.ofText?_eq_some_iff`).  What is written of a version is such a text, and stays one of the
same version with a `-`, a `+` or a point and anything behind it (`Version.ofText?_text_append`).
-/

namespace LayerOverrides

namespace Text

/-! ## Blanks at the ends -/

theorem isBlank_of_isDigit {c : Char} (h : c.isDigit = true) : isBlank c = false := by
  simp only [Char.isDigit, Bool.and_eq_true, decide_eq_true_eq, ge_iff_le, UInt32.le_iff_toNat_le]
    at h
  have hnat : c.toNat = c.val.toNat := rfl
  have hzero : '0'.val.toNat = 48 := rfl
  have hnine : '9'.val.toNat = 57 := rfl
  simp only [isBlank, blankRanges, List.any_cons, List.any_nil, Bool.or_false, Bool.or_eq_false_iff,
    Bool.and_eq_false_iff, decide_eq_false_iff_not]
  omega

/-- A text without the blanks at its end. -/
def trimEnd (s : List Char) : List Char := (s.reverse.dropWhile isBlank).reverse

theorem dropWhile_isBlank_append {s : List Char} (hne : s ≠ []) (h : ∀ c ∈ s, isBlank c = false)
    (t : List Char) : (s ++ t).dropWhile isBlank = s ++ t := by
  obtain ⟨c, s, rfl⟩ := List.exists_cons_of_ne_nil hne
  rw [List.cons_append, List.dropWhile_cons_of_neg (by simp [h c])]

/-- A text without blanks stays in front of what is trimmed. -/
theorem trim_append {s : List Char} (hne : s ≠ []) (h : ∀ c ∈ s, isBlank c = false)
    (t : List Char) : trim (s ++ t) = s ++ trimEnd t := by
  have hreverse : s.reverse.dropWhile isBlank = s.reverse := by
    have := dropWhile_isBlank_append (List.reverse_ne_nil_iff.2 hne)
      (fun c hc => h c (List.mem_reverse.1 hc)) []
    rwa [List.append_nil] at this
  rw [trim, dropWhile_isBlank_append hne h, List.reverse_append, List.dropWhile_append, trimEnd]
  split_ifs with hempty
  · rw [hreverse, List.isEmpty_iff.1 hempty, List.reverse_reverse, List.reverse_nil,
      List.append_nil]
  · rw [List.reverse_append, List.reverse_reverse]

theorem trimEnd_cons {c : Char} (h : isBlank c = false) (t : List Char) :
    trimEnd (c :: t) = c :: trimEnd t := by
  have hone : (c :: t).dropWhile isBlank = c :: t := List.dropWhile_cons_of_neg (by simp [h])
  calc trimEnd (c :: t) = trim ([c] ++ t) := by rw [List.singleton_append, trim, hone, trimEnd]
    _ = [c] ++ trimEnd t := trim_append (by simp) (by simpa using h) t

theorem takeWhile_eq_iff {α : Type} {p : α → Bool} {l front : List α} :
    l.takeWhile p = front ↔ ∃ back, l = front ++ back ∧ (∀ a ∈ front, p a = true) ∧
      ∀ a ∈ back.head?, p a = false := by
  constructor
  · rintro rfl
    refine ⟨l.dropWhile p, List.takeWhile_append_dropWhile.symm,
      fun a ha => List.mem_takeWhile_imp ha, fun a ha => ?_⟩
    have := List.head?_dropWhile_not p l
    rwa [ha] at this
  · rintro ⟨back, rfl, hfront, hback⟩
    rw [List.takeWhile_append_of_pos hfront]
    rcases back with _ | ⟨a, back⟩
    · simp
    · rw [List.takeWhile_cons_of_neg (by simp [hback a rfl]), List.append_nil]

end Text

namespace Version

/-- The version of up to three numbers; the missing ones are zero. -/
def ofNumbers (numbers : List UInt32) : Version :=
  ⟨numbers.getD 0 0, numbers.getD 1 0, numbers.getD 2 0⟩

/-- A part of a body: a numeral between blanks. -/
def IsPart (part : List Char) (n : UInt32) : Prop := Text.IsNumeral (Text.trim part) n.toNat

theorem number?_eq_some_iff {part : List Char} {n : UInt32} :
    number? part = some n ↔ IsPart part n := by
  have hlt := n.toNat_lt
  rw [IsPart, ← Text.readNat?_eq_some_iff, number?]
  rcases Text.readNat? (Text.trim part) with _ | m
  · simp
  · dsimp only
    rw [Option.some.injEq]
    constructor
    · intro h
      split_ifs at h with hm
      rw [← Option.some.inj h, UInt32.toNat_ofNat_of_lt' hm]
    · rintro rfl
      rw [if_pos hlt, UInt32.ofNat_toNat]

/-- The texts of a version.  Behind three parts a body may go on with any others, and behind the
body, from a `-` or a `+` on, the text may go on with anything. -/
inductive IsText : Version → List Char → Prop where
  | intro {s body suffix : List Char} {parts : List (List Char)} {numbers : List UInt32}
    (trimmed : Text.trim s = body ++ suffix)
    (body_plain : ∀ c ∈ body, c ≠ '-' ∧ c ≠ '+')
    (suffix_cut : ∀ c ∈ suffix.head?, c = '-' ∨ c = '+')
    (body_ne : body ≠ [])
    (joined : Text.join '.' parts = body)
    (parts_plain : ∀ part ∈ parts, '.' ∉ part)
    (parts_read : List.Forall₂ IsPart (parts.take 3) numbers) :
    IsText (ofNumbers numbers) s

theorem numberAt?_iff {v : Version} : ∀ {parts : List (List Char)},
    numberAt? parts 0 = some v.major ∧ numberAt? parts 1 = some v.minor ∧
        numberAt? parts 2 = some v.patch ↔
      ∃ numbers, List.Forall₂ IsPart (parts.take 3) numbers ∧ ofNumbers numbers = v
  | [] => by
    rcases v with ⟨major, minor, patch⟩
    simp [numberAt?, ofNumbers]
  | [a] => by
    rcases v with ⟨major, minor, patch⟩
    simp [numberAt?, ofNumbers, number?_eq_some_iff, List.forall₂_cons_left_iff]
  | [a, b] => by
    rcases v with ⟨major, minor, patch⟩
    simp [numberAt?, ofNumbers, number?_eq_some_iff, List.forall₂_cons_left_iff, and_assoc]
  | a :: b :: c :: parts => by
    rcases v with ⟨major, minor, patch⟩
    simp [numberAt?, ofNumbers, number?_eq_some_iff, List.forall₂_cons_left_iff, and_assoc]

theorem ofText?_eq_some_of_parts {s : List Char} {v : Version} : ofText? s = some v ↔
    core s ≠ [] ∧ ∃ numbers,
      List.Forall₂ IsPart ((Text.split '.' (core s)).take 3) numbers ∧ ofNumbers numbers = v := by
  rw [← numberAt?_iff, ofText?]
  split_ifs with hcore
  · simp [hcore]
  · rw [and_iff_right hcore]
    rcases v with ⟨major, minor, patch⟩
    constructor
    · intro h
      dsimp only at h
      split at h
      · rename_i hmajor hminor hpatch
        cases h
        exact ⟨hmajor, hminor, hpatch⟩
      · cases h
    · rintro ⟨hmajor, hminor, hpatch⟩
      simp only [hmajor, hminor, hpatch]

theorem ofText?_eq_some_iff {s : List Char} {v : Version} :
    ofText? s = some v ↔ IsText v s := by
  rw [ofText?_eq_some_of_parts]
  constructor
  · rintro ⟨hne, numbers, hread, rfl⟩
    obtain ⟨suffix, htrim, hbody, hsuffix⟩ := Text.takeWhile_eq_iff.1 (rfl : core s = core s)
    exact .intro htrim (fun c hc => by simpa using hbody c hc)
      (fun c hc => by simpa [Decidable.or_iff_not_imp_left] using hsuffix c hc) hne
      (Text.join_split '.' (core s)) (fun part hpart => Text.not_mem_of_mem_split hpart) hread
  · rintro ⟨trimmed, body_plain, suffix_cut, body_ne, joined, parts_plain, parts_read⟩
    rename_i body suffix parts numbers
    have hcore : core s = body := Text.takeWhile_eq_iff.2 ⟨suffix, trimmed,
      fun c hc => by simpa using body_plain c hc,
      fun c hc => by simpa [Decidable.or_iff_not_imp_left] using suffix_cut c hc⟩
    have hparts : Text.split '.' (core s) = parts := by
      rw [hcore, ← joined]
      refine Text.split_join ?_ parts_plain
      rintro rfl
      exact body_ne joined.symm
    rw [hparts, hcore]
    exact ⟨body_ne, numbers, parts_read, rfl⟩

/-! ## What is written -/

theorem eq_point_or_isDigit_of_mem_text {v : Version} {c : Char} (h : c ∈ v.text) :
    c = '.' ∨ c.isDigit = true := by
  simp only [text, List.mem_append, List.mem_cons] at h
  rcases h with (h | h | h) | h | h
  · exact .inr (Text.isDigit_of_mem_writeNat h)
  · exact .inl h
  · exact .inr (Text.isDigit_of_mem_writeNat h)
  · exact .inl h
  · exact .inr (Text.isDigit_of_mem_writeNat h)

theorem isBlank_of_mem_text {v : Version} {c : Char} (h : c ∈ v.text) :
    Text.isBlank c = false := by
  rcases eq_point_or_isDigit_of_mem_text h with rfl | hdigit
  · decide
  · exact Text.isBlank_of_isDigit hdigit

theorem ne_of_mem_text {v : Version} {c : Char} (h : c ∈ v.text) : c ≠ '-' ∧ c ≠ '+' := by
  rcases eq_point_or_isDigit_of_mem_text h with rfl | hdigit
  · decide
  · constructor <;> rintro rfl <;> exact absurd hdigit (by decide)

theorem text_ne_nil (v : Version) : v.text ≠ [] := by simp [text]

theorem isPart_writeNat (n : UInt32) : IsPart (Text.writeNat n.toNat) n := by
  have htrim := Text.trim_append (Text.writeNat_ne_nil n.toNat)
    (fun c hc => Text.isBlank_of_isDigit (Text.isDigit_of_mem_writeNat hc)) []
  have hnil : Text.trimEnd [] = [] := rfl
  rw [List.append_nil, hnil, List.append_nil] at htrim
  rw [IsPart, htrim]
  exact Text.isNumeral_writeNat n.toNat

/-- With a point and anything behind it, a written version has more parts, behind the first
three. -/
theorem take_split_text (v : Version) {more : List Char} (h : ∀ c ∈ more.head?, c = '.') :
    (Text.split '.' (v.text ++ more)).take 3 =
      [Text.writeNat v.major.toNat, Text.writeNat v.minor.toNat, Text.writeNat v.patch.toNat] := by
  have hpoint : ∀ n, '.' ∉ Text.writeNat n := fun n hn =>
    absurd (Text.isDigit_of_mem_writeNat hn) (by decide)
  have hlast : ∃ parts, Text.split '.' (Text.writeNat v.patch.toNat ++ more) =
      Text.writeNat v.patch.toNat :: parts := by
    rcases more with _ | ⟨c, more⟩
    · exact ⟨[], by rw [List.append_nil, Text.split_of_not_mem (hpoint _)]⟩
    · obtain rfl := h c rfl
      exact ⟨_, Text.split_append_cons (hpoint _) more⟩
  obtain ⟨parts, hparts⟩ := hlast
  simp only [text, List.append_assoc, List.cons_append]
  rw [Text.split_append_cons (hpoint _), Text.split_append_cons (hpoint _), hparts]
  rfl

/-- A written version stays the same with a `-`, a `+` or a point and anything behind it. -/
theorem ofText?_text_append (v : Version) {rest : List Char}
    (h : ∀ c ∈ rest.head?, c = '-' ∨ c = '+' ∨ c = '.') :
    ofText? (v.text ++ rest) = some v := by
  -- Trimming does not reach the separator; of one that is `-` or `+` nothing is left in the body.
  have hmore : ∀ c ∈ ((Text.trimEnd rest).takeWhile fun c => c ≠ '-' ∧ c ≠ '+').head?,
      c = '.' := by
    rcases rest with _ | ⟨d, rest⟩
    · simp [Text.trimEnd]
    · have hblank : Text.isBlank d = false := by
        rcases h d rfl with rfl | rfl | rfl <;> decide
      rw [Text.trimEnd_cons hblank]
      rcases h d rfl with rfl | rfl | rfl <;> simp
  have hcore : core (v.text ++ rest) =
      v.text ++ (Text.trimEnd rest).takeWhile fun c => c ≠ '-' ∧ c ≠ '+' := by
    rw [core, Text.trim_append v.text_ne_nil fun c hc => isBlank_of_mem_text hc,
      List.takeWhile_append_of_pos fun c hc => by simpa using ne_of_mem_text hc]
  rw [ofText?_eq_some_of_parts, hcore]
  refine ⟨by simp [v.text_ne_nil], [v.major, v.minor, v.patch], ?_, rfl⟩
  rw [take_split_text v hmore]
  exact .cons (isPart_writeNat _) (.cons (isPart_writeNat _) (.cons (isPart_writeNat _) .nil))

theorem ofString?_toText_append (v : Version) {rest : String}
    (h : ∀ c ∈ rest.toList.head?, c = '-' ∨ c = '+' ∨ c = '.') :
    ofString? (v.toText ++ rest) = some v := by
  rw [ofString?, toText, String.toList_append, String.toList_ofList]
  exact v.ofText?_text_append h

/-- A text is read as a version exactly if it is one of its texts.  What is written of a version
is, and so is what goes on from there with a `-`, a `+` or a point. -/
theorem ofString?_texts (s : String) (v : Version) (t : String) :
    (ofString? s = some v ↔ IsText v s.toList) ∧ ofString? v.toText = some v ∧
      ofString? (v.toText ++ "-" ++ t) = some v ∧ ofString? (v.toText ++ "+" ++ t) = some v ∧
      ofString? (v.toText ++ "." ++ t) = some v := by
  refine ⟨ofText?_eq_some_iff, ?_, ?_, ?_, ?_⟩
  · rw [← String.append_empty (s := v.toText)]
    exact v.ofString?_toText_append (by simp)
  · rw [String.append_assoc]
    exact v.ofString?_toText_append (by simp)
  · rw [String.append_assoc]
    exact v.ofString?_toText_append (by simp)
  · rw [String.append_assoc]
    exact v.ofString?_toText_append (by simp)

end Version

end LayerOverrides
