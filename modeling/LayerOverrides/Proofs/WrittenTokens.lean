import LayerOverrides.Json.Token
import LayerOverrides.Json.Writer
import LayerOverrides.Proofs.NumberTexts

/-!
# The tokens of a written value

A written value is cut into the tokens that its structure calls for, in either layout
(`scan_text`): strings come back as they were, since each escape stands for the character it was
made from (`foldlM_escape`), and numbers come back as their texts are read.
-/

namespace LayerOverrides.Json

mutual

/-- The tokens of the text of a value. -/
def tokens : Json → List Token
  | .null => [.scalar .null]
  | .bool b => [.scalar (.bool b)]
  | .number n => [.scalar (.number n.reread)]
  | .string s => [.text s]
  | .array [] => [.beginArray, .endArray]
  | .array (a :: l) => .beginArray :: (tokens a ++ (itemTokens l ++ [.endArray]))
  | .object [] => [.beginObject, .endObject]
  | .object ((key, a) :: l) =>
    .beginObject :: .text key :: .colon :: (tokens a ++ (memberTokens l ++ [.endObject]))

/-- The tokens of the items after the first, each behind its comma. -/
def itemTokens : List Json → List Token
  | [] => []
  | a :: l => .comma :: (tokens a ++ itemTokens l)

def memberTokens : List (String × Json) → List Token
  | [] => []
  | (key, a) :: l => .comma :: .text key :: .colon :: (tokens a ++ memberTokens l)

end

namespace Token

/-! ## White space and brackets -/

theorem foldlM_spaces {s : List Char} (hs : ∀ c ∈ s, isSpace c = true) (rest : List Char)
    (toks : List Token) :
    (s ++ rest).foldlM step (.between, toks) = rest.foldlM step (.between, toks) := by
  induction s with
  | nil => rfl
  | cons c s ih =>
    obtain ⟨hc, hs⟩ := List.forall_mem_cons.1 hs
    have hstep : step (.between, toks) c = some (.between, toks) := by
      rw [step, start, if_pos hc]
    rw [List.cons_append, List.foldlM_cons, hstep]
    exact ih hs

theorem foldlM_newline (layout : Layout) (depth : Nat) (rest : List Char) (toks : List Token) :
    (layout.newline depth ++ rest).foldlM step (.between, toks) =
      rest.foldlM step (.between, toks) := by
  refine foldlM_spaces (fun c hc => ?_) rest toks
  cases layout with
  | compact => exact absurd hc (by simp [Layout.newline])
  | pretty =>
    rcases List.mem_cons.1 hc with rfl | hc
    · rfl
    · rw [List.eq_of_mem_replicate hc]
      rfl

theorem foldlM_bracket {c : Char} {token : Token} (hc : ofBracket? c = some token)
    (rest : List Char) (toks : List Token) :
    (c :: rest).foldlM step (.between, toks) = rest.foldlM step (.between, token :: toks) := by
  unfold ofBracket? at hc
  split at hc <;> cases hc <;> rfl

theorem foldlM_colon (layout : Layout) (rest : List Char) (toks : List Token) :
    (layout.colon ++ rest).foldlM step (.between, toks) =
      rest.foldlM step (.between, .colon :: toks) := by
  cases layout <;> rfl

/-! ## Words -/

/-- A word that stands in front of a text ends there. -/
def EndsWord (s : List Char) : Prop := ∃ c rest, s = c :: rest ∧ endsWord c = true

theorem EndsWord.cons {c : Char} (hc : endsWord c = true) (rest : List Char) :
    EndsWord (c :: rest) := ⟨c, rest, rfl, hc⟩

theorem foldlM_word {c : Char} (hc : endsWord c = true) {rest : List Char} {toks : List Token}
    {token : Token} : ∀ {s latest : List Char}, s.any endsWord = false →
      ofWord? (latest.reverse ++ s) = some token →
        (s ++ c :: rest).foldlM step (.word latest, toks) =
          (c :: rest).foldlM step (.between, token :: toks)
  | [], latest, _, hword => by
    have hstep : step (.word latest, toks) c = some (start (token :: toks) c) := by
      rw [List.append_nil] at hword
      rw [step, if_pos hc, hword]
      rfl
    rw [List.nil_append, List.foldlM_cons, List.foldlM_cons, hstep]
    rfl
  | d :: s, latest, hs, hword => by
    obtain ⟨hd, hs⟩ := Bool.or_eq_false_iff.1 (List.any_cons ▸ hs)
    have hstep : step (.word latest, toks) d = some (.word (d :: latest), toks) := by
      rw [step, if_neg (by simp [hd])]
    rw [List.cons_append, List.foldlM_cons, hstep]
    refine foldlM_word hc hs ?_
    rw [List.reverse_cons, List.append_assoc]
    exact hword

/-- A word counts once something ends it. -/
theorem foldlM_of_ofWord? {s : List Char} (hs : s.any endsWord = false) {token : Token}
    (hword : ofWord? s = some token) {rest : List Char} (hrest : EndsWord rest)
    (toks : List Token) :
    (s ++ rest).foldlM step (.between, toks) = rest.foldlM step (.between, token :: toks) := by
  obtain ⟨c, rest, rfl, hc⟩ := hrest
  match s with
  | [] => cases hword
  | d :: s =>
    obtain ⟨hd, hs⟩ := Bool.or_eq_false_iff.1 (List.any_cons ▸ hs)
    have hstep : step (.between, toks) d = some (.word [d], toks) := by
      simp only [endsWord, Bool.or_eq_false_iff, Option.isSome_eq_false_iff,
        Option.isNone_iff_eq_none, decide_eq_false_iff_not] at hd
      rw [step, start, if_neg (by simp [hd.1.1]), if_neg hd.1.2, hd.2]
    rw [List.cons_append, List.foldlM_cons, hstep]
    exact foldlM_word hc hs hword

theorem endsWord_of_isNumeralChar {c : Char} (h : isNumeralChar c = true) :
    endsWord c = false := by
  refine Bool.eq_false_iff.2 fun hends => ?_
  simp only [endsWord, isSpace, Bool.or_eq_true, decide_eq_true_eq] at hends
  rcases hends with (((((rfl | rfl) | rfl) | rfl) | rfl) | hbracket)
  · revert h; decide
  · revert h; decide
  · revert h; decide
  · revert h; decide
  · revert h; decide
  · unfold ofBracket? at hbracket
    split at hbracket <;> revert h <;> first | decide | cases hbracket

theorem any_endsWord_text (n : Number) : n.text.any endsWord = false := by
  refine List.any_eq_false.2 fun c hc => ?_
  rw [endsWord_of_isNumeralChar (isNumeralChar_of_ofText? (ofText?_text n) c hc)]
  exact Bool.false_ne_true

/-- The text of a number is none of the literals, since it is read as a number. -/
theorem ofWord?_text (n : Number) : ofWord? n.text = some (.scalar (.number n.reread)) := by
  have hread := ofText?_text n
  have hne : ∀ s, Number.ofText? s = none → n.text ≠ s := fun s hs heq => by
    rw [heq, hs] at hread
    cases hread
  rw [ofWord?, if_neg (hne _ (by decide)), if_neg (hne _ (by decide)), if_neg (hne _ (by decide)),
    hread]
  rfl

/-! ## Strings -/

theorem hexDigit?_digitChar : ∀ k < 16, hexDigit? (Nat.digitChar k) = some k := by decide

theorem step_code {c : Char} {digit : Nat} (hc : hexDigit? c = some digit) {count : Nat}
    (hcount : 1 < count) (latest : List Char) (high : Option Nat) (value : Nat)
    (toks : List Token) :
    step (.code latest high count value, toks) c =
      some (.code latest high (count - 1) (16 * value + digit), toks) := by
  rw [step, hc, Option.bind_some, if_neg (by omega)]

/-- The code of a control character. -/
theorem foldlM_hexDigits {c : Char} (hc : c.toNat < 0x20) (rest latest : List Char)
    (toks : List Token) :
    (hexDigits c ++ rest).foldlM step (.code latest none 2 0, toks) =
      rest.foldlM step (.string (c :: latest), toks) := by
  have hhigh := hexDigit?_digitChar (c.toNat / 16) (by omega)
  have hlow := hexDigit?_digitChar (c.toNat % 16) (by omega)
  have hvalue : 16 * (16 * 0 + c.toNat / 16) + c.toNat % 16 = c.toNat := by omega
  have hlast : step (.code latest none 1 (16 * 0 + c.toNat / 16), toks)
      (Nat.digitChar (c.toNat % 16)) = some (.string (c :: latest), toks) := by
    rw [step, hlow, Option.bind_some, if_pos (by decide), hvalue, finishCode, if_neg (by omega),
      if_neg (by omega), Char.ofNat_toNat]
    rfl
  rw [hexDigits, List.cons_append, List.foldlM_cons, step_code hhigh (by decide)]
  rw [Option.bind_eq_bind, Option.bind_some, List.singleton_append, List.foldlM_cons, hlast]
  rfl

/-- What is written for a character is read as that character. -/
theorem foldlM_escape (c : Char) (rest latest : List Char) (toks : List Token) :
    (escape c ++ rest).foldlM step (.string latest, toks) =
      rest.foldlM step (.string (c :: latest), toks) := by
  unfold escape
  split_ifs with hquote hbackslash hb hf hn hr ht hcontrol
  · subst hquote; rfl
  · subst hbackslash; rfl
  · subst hb; rfl
  · subst hf; rfl
  · subst hn; rfl
  · subst hr; rfl
  · subst ht; rfl
  · have hstep : ('\\' :: 'u' :: '0' :: '0' :: hexDigits c ++ rest).foldlM step
        (.string latest, toks) =
          (hexDigits c ++ rest).foldlM step (.code latest none 2 0, toks) := rfl
    rw [hstep, foldlM_hexDigits hcontrol]
  · have hstep : step (.string latest, toks) c = some (.string (c :: latest), toks) := by
      rw [step, if_neg hquote, if_neg hbackslash, if_neg hcontrol]
    rw [List.singleton_append, List.foldlM_cons, hstep]
    rfl

theorem foldlM_flatMap_escape (rest : List Char) (toks : List Token) :
    ∀ l latest : List Char, (l.flatMap escape ++ rest).foldlM step (.string latest, toks) =
      rest.foldlM step (.string (l.reverse ++ latest), toks)
  | [], _ => rfl
  | c :: l, latest => by
    rw [List.flatMap_cons, List.append_assoc, foldlM_escape, foldlM_flatMap_escape rest toks l,
      List.reverse_cons, List.append_assoc]
    rfl

theorem foldlM_quoted (s : String) (rest : List Char) (toks : List Token) :
    (quoted s ++ rest).foldlM step (.between, toks) =
      rest.foldlM step (.between, .text s :: toks) := by
  have hquoted : quoted s ++ rest = '"' :: (s.toList.flatMap escape ++ '"' :: rest) := by
    simp [quoted]
  have hopen : step (.between, toks) '"' = some (.string [], toks) := rfl
  have hclose : step (.string (s.toList.reverse ++ []), toks) '"' =
      some (.between, .text s :: toks) := by
    rw [List.append_nil, step, if_pos rfl, List.reverse_reverse, String.ofList_toList]
  rw [hquoted, List.foldlM_cons, hopen, Option.bind_eq_bind, Option.bind_some,
    foldlM_flatMap_escape, List.foldlM_cons, hclose]
  rfl

/-! ## Values -/

theorem EndsWord.newline (layout : Layout) (depth : Nat) {s : List Char} (h : EndsWord s) :
    EndsWord (layout.newline depth ++ s) := by
  cases layout with
  | compact => exact h
  | pretty => exact .cons rfl _

theorem EndsWord.renderItems (layout : Layout) (depth : Nat) (items : List Json) {s : List Char}
    (h : EndsWord s) : EndsWord (renderItems layout depth items ++ s) := by
  cases items with
  | nil => exact h
  | cons a l => exact .cons rfl _

theorem EndsWord.renderMembers (layout : Layout) (depth : Nat) (members : Members)
    {s : List Char} (h : EndsWord s) : EndsWord (renderMembers layout depth members ++ s) := by
  cases members with
  | nil => exact h
  | cons m l => exact .cons rfl _

section

variable (layout : Layout)

mutual

/-- A value is cut into its tokens if what follows it ends a word. -/
theorem foldlM_render : ∀ (depth : Nat) (value : Json) {rest : List Char}, EndsWord rest →
    ∀ toks : List Token, (render layout depth value ++ rest).foldlM step (.between, toks) =
      rest.foldlM step (.between, (tokens value).reverse ++ toks)
  | _, .null, rest, h, toks =>
    foldlM_of_ofWord? (s := ['n', 'u', 'l', 'l']) rfl rfl h toks
  | _, .bool true, rest, h, toks =>
    foldlM_of_ofWord? (s := ['t', 'r', 'u', 'e']) rfl rfl h toks
  | _, .bool false, rest, h, toks =>
    foldlM_of_ofWord? (s := ['f', 'a', 'l', 's', 'e']) rfl rfl h toks
  | _, .number n, rest, h, toks =>
    foldlM_of_ofWord? (any_endsWord_text n) (ofWord?_text n) h toks
  | _, .string s, rest, h, toks => foldlM_quoted s rest toks
  | _, .array [], rest, h, toks => rfl
  | depth, .array (a :: l), rest, h, toks => by
    have hclose : EndsWord (layout.newline depth ++ ']' :: rest) :=
      .newline layout depth (.cons rfl _)
    have htext : render layout depth (.array (a :: l)) ++ rest =
        '[' :: (layout.newline (depth + 1) ++ (render layout (depth + 1) a ++
          (renderItems layout (depth + 1) l ++ (layout.newline depth ++ ']' :: rest)))) := by
      simp [render]
    rw [htext, foldlM_bracket rfl, foldlM_newline,
      foldlM_render (depth + 1) a (.renderItems layout (depth + 1) l hclose),
      foldlM_renderItems (depth + 1) l hclose, foldlM_newline, foldlM_bracket rfl]
    simp [tokens]
  | _, .object [], rest, h, toks => rfl
  | depth, .object ((key, a) :: l), rest, h, toks => by
    have hclose : EndsWord (layout.newline depth ++ '\x7d' :: rest) :=
      .newline layout depth (.cons rfl _)
    have htext : render layout depth (.object ((key, a) :: l)) ++ rest =
        '\x7b' :: (layout.newline (depth + 1) ++ (quoted key ++ (layout.colon ++
          (render layout (depth + 1) a ++ (renderMembers layout (depth + 1) l ++
            (layout.newline depth ++ '\x7d' :: rest)))))) := by
      simp [render]
    rw [htext, foldlM_bracket rfl, foldlM_newline, foldlM_quoted, foldlM_colon,
      foldlM_render (depth + 1) a (.renderMembers layout (depth + 1) l hclose),
      foldlM_renderMembers (depth + 1) l hclose, foldlM_newline, foldlM_bracket rfl]
    simp [tokens]

theorem foldlM_renderItems : ∀ (depth : Nat) (items : List Json) {rest : List Char},
    EndsWord rest → ∀ toks : List Token,
      (renderItems layout depth items ++ rest).foldlM step (.between, toks) =
        rest.foldlM step (.between, (itemTokens items).reverse ++ toks)
  | _, [], rest, h, toks => rfl
  | depth, a :: l, rest, h, toks => by
    have htext : renderItems layout depth (a :: l) ++ rest =
        ',' :: (layout.newline depth ++ (render layout depth a ++
          (renderItems layout depth l ++ rest))) := by
      simp [renderItems]
    rw [htext, foldlM_bracket rfl, foldlM_newline,
      foldlM_render depth a (.renderItems layout depth l h), foldlM_renderItems depth l h]
    simp [itemTokens]

theorem foldlM_renderMembers : ∀ (depth : Nat) (members : List (String × Json))
    {rest : List Char}, EndsWord rest → ∀ toks : List Token,
      (renderMembers layout depth members ++ rest).foldlM step (.between, toks) =
        rest.foldlM step (.between, (memberTokens members).reverse ++ toks)
  | _, [], rest, h, toks => rfl
  | depth, (key, a) :: l, rest, h, toks => by
    have htext : renderMembers layout depth ((key, a) :: l) ++ rest =
        ',' :: (layout.newline depth ++ (quoted key ++ (layout.colon ++ (render layout depth a ++
          (renderMembers layout depth l ++ rest))))) := by
      simp [renderMembers]
    rw [htext, foldlM_bracket rfl, foldlM_newline, foldlM_quoted, foldlM_colon,
      foldlM_render depth a (.renderMembers layout depth l h), foldlM_renderMembers depth l h]
    simp [memberTokens]

end

end

/-! ## Whole texts -/

/-- A blank at the end changes nothing. -/
theorem finish_of_step_space (st : State × List Token) : (step st ' ').bind finish = finish st := by
  obtain ⟨state, toks⟩ := st
  cases state with
  | word latest =>
    rw [step, if_pos (by decide)]
    cases hword : ofWord? latest.reverse <;> simp [finish, hword, start, isSpace]
  | _ => rfl

theorem scan_append_space (s : List Char) : scan (s ++ [' ']) = scan s := by
  rw [scan, List.foldlM_append, scan]
  cases s.foldlM step (State.between, []) with
  | none => rfl
  | some st =>
    rw [Option.bind_eq_bind, Option.bind_some, Option.bind_some, ← finish_of_step_space st,
      List.foldlM_cons]
    simp

theorem scan_text (layout : Layout) (value : Json) :
    scan (value.text layout) = some (tokens value) := by
  have hblank : EndsWord [' '] := .cons rfl []
  rw [← scan_append_space, scan, Json.text, foldlM_render layout 0 value hblank]
  simp [step, start, isSpace, finish]

end Token

end LayerOverrides.Json
