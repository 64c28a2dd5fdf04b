/-!
# Parts between separators

A text is cut at every separator into at least one part, and joined again with one separator
between neighbours. Main statements: [join_split], and [split_join] for parts that hold no
separator.
-/

namespace LayerOverrides.Text

/-- The parts of a text between its separators; a text without one is a single part. -/
def split (separator : Char) : List Char → List (List Char)
  | [] => [[]]
  | c :: s =>
    if c = separator then [] :: split separator s
    else match split separator s with
      | [] => [[c]]
      | part :: parts => (c :: part) :: parts

/-- The parts with one separator between neighbours. -/
def join (separator : Char) : List (List Char) → List Char
  | [] => []
  | [part] => part
  | part :: parts => part ++ separator :: join separator parts

theorem split_ne_nil (separator : Char) (s : List Char) : split separator s ≠ [] := by
  cases s with
  | nil => simp [split]
  | cons c s =>
    unfold split
    split
    · simp
    · split <;> simp

theorem join_split (separator : Char) (s : List Char) : join separator (split separator s) = s := by
  induction s with
  | nil => rfl
  | cons c s ih =>
    unfold split
    split
    · rename_i hc
      cases h : split separator s with
      | nil => exact absurd h (split_ne_nil separator s)
      | cons part parts => rw [h] at ih; rw [join, ih, List.nil_append, hc]; simp
    · cases h : split separator s with
      | nil => exact absurd h (split_ne_nil separator s)
      | cons part parts =>
        rw [h] at ih
        cases parts with
        | nil => simpa [join] using ih
        | cons part' parts => simpa [join] using ih

theorem not_mem_of_mem_split {separator : Char} {s part : List Char}
    (h : part ∈ split separator s) : separator ∉ part := by
  induction s generalizing part with
  | nil => simp [split] at h; simp [h]
  | cons c s ih =>
    unfold split at h
    split at h
    · rcases List.mem_cons.1 h with rfl | h
      · simp
      · exact ih h
    · rename_i hc
      cases hs : split separator s with
      | nil => exact absurd hs (split_ne_nil separator s)
      | cons first parts =>
        rw [hs] at h ih
        rcases List.mem_cons.1 h with rfl | h
        · intro hm
          rcases List.mem_cons.1 hm with rfl | hm
          · exact hc rfl
          · exact ih (by simp) hm
        · exact ih (List.mem_cons_of_mem _ h)

theorem split_of_not_mem {separator : Char} {s : List Char} (h : separator ∉ s) :
    split separator s = [s] := by
  induction s with
  | nil => rfl
  | cons c s ih =>
    rw [List.mem_cons, not_or] at h
    rw [split, if_neg (Ne.symm h.1), ih h.2]

theorem split_append_cons {separator : Char} {part : List Char} (h : separator ∉ part)
    (s : List Char) : split separator (part ++ separator :: s) = part :: split separator s := by
  induction part with
  | nil => simp [split]
  | cons c part ih =>
    rw [List.mem_cons, not_or] at h
    rw [List.cons_append, split, if_neg (Ne.symm h.1), ih h.2]

theorem split_join {separator : Char} {parts : List (List Char)} (hne : parts ≠ [])
    (h : ∀ part ∈ parts, separator ∉ part) : split separator (join separator parts) = parts := by
  induction parts with
  | nil => exact absurd rfl hne
  | cons part parts ih =>
    cases parts with
    | nil => exact split_of_not_mem (h part (by simp))
    | cons part' parts =>
      rw [join, split_append_cons (h part (by simp)),
        ih (by simp) fun p hp => h p (List.mem_cons_of_mem _ hp)]
      simp

end LayerOverrides.Text
