import LayerOverrides.Setting.Value
import Mathlib.Data.List.Basic

/-!
# How values are spelled

A JSON value spells at most one value of each kind (`Spells.unique`).  A value reads a node that
spells one of its kind, and becomes that one; every other node leaves it as it is.  So nothing but
the kind and the node decides what is read, and what is written of a value reads back as that value
(`load_reread`).

A list is spelled as an array of strings or as one text with commas.  The array gives the strings
as they are, and the text its words, without blanks at their ends and without empty ones.  The two
spellings agree exactly where every string is a word already (`load_spellings`).
-/

namespace LayerOverrides

theorem Json.Number.int64?_eq_some_iff {n : Json.Number} {m : Int64} :
    n.int64? = some m ↔ Json.number n = Json.ofInt64 m := by
  cases n with
  | double x => simp [int64?, ofInt64]
  | integer value lower upper =>
    rw [int64?, ofInt64, Json.number.injEq, Json.Number.integer.injEq]
    constructor
    · intro h
      split at h
      · rw [← Option.some.inj h, Int64.toInt_ofInt_of_le lower (by assumption)]
      · cases h
    · rintro rfl
      have hlt : m.toInt < 0x8000000000000000 := m.toInt_lt
      rw [if_pos hlt, Int64.ofInt_toInt]

namespace Setting

theorem readInt64?_eq_some_iff {s : List Char} {n : Int64} :
    readInt64? s = some n ↔ Text.readInt? s = some n.toInt := by
  rw [readInt64?]
  cases Text.readInt? s with
  | none => simp
  | some m =>
    constructor
    · intro h
      dsimp only at h
      split at h
      · rename_i hm
        rw [← Option.some.inj h, Int64.toInt_ofInt_of_le hm.1 hm.2]
      · cases h
    · intro h
      rw [Option.some.inj h]
      exact (if_pos ⟨n.le_toInt, n.toInt_lt⟩).trans (congrArg some (Int64.ofInt_toInt n))

/-! ## What spells a value -/

/-- The values that a JSON value spells.  The number that stands for a truth value is `1`, as an
integer. -/
inductive Spells : Json → Value → Prop where
  | text (role : TextRole) (s : String) : Spells (.string s) (.text role s)
  | numberText (role : TextRole) (n : Json.Number) :
    Spells (.number n) (.text role (String.ofList n.text))
  | truthText (role : TextRole) (b : Bool) :
    Spells (.bool b) (.text role (if b then "true" else "false"))
  | integer (n : Int64) : Spells (Json.ofInt64 n) (.int n)
  | numeral {s : String} {n : Int64} (h : Text.readInt? (Text.trim s.toList) = some n.toInt) :
    Spells (.string s) (.int n)
  | truth (spelling : Spelling) (b : Bool) : Spells (.bool b) (.bool spelling b)
  | word (s : String) : Spells (.string s) (.bool .words (s == "TRUE"))
  | digit (s : String) : Spells (.string s) (.bool .digits (s == "1"))
  | number {n : Json.Number} {b : Bool} (h : b = true ↔ Json.number n = Json.ofInt64 1) :
    Spells (.number n) (.bool .digits b)
  | words (role : ListRole) (s : String) : Spells (.string s) (.list role (words s.toList))
  | strings (role : ListRole) (items : List Json) :
    Spells (.array items) (.list role (items.filterMap Json.string?))

theorem read?_of_spells {node : Json} {v : Value} (h : Spells node v) :
    v.kind.read? node = some v := by
  cases h with
  | truthText role b => cases b <;> rfl
  | integer n => rw [Value.kind, Kind.read?, int64?_ofInt64, Option.map_some]
  | numeral h =>
    rw [Value.kind, Kind.read?, integer?, readInt64?_eq_some_iff.2 h, Option.map_some]
  | @number n b h =>
    have hb : (n.int64? == some 1) = b := by
      rw [Bool.eq_iff_iff, beq_iff_eq, Json.Number.int64?_eq_some_iff, h]
    rw [Value.kind, Kind.read?, truth?, hb, Option.map_some]
  | _ => rfl

theorem spells_of_read? {k : Kind} {node : Json} {v : Value} (h : k.read? node = some v) :
    Spells node v := by
  cases k with
  | text role =>
    obtain ⟨s, hs, rfl⟩ := Option.map_eq_some_iff.1 h
    cases node with
    | string s' => cases hs; exact .text role s
    | number n => cases hs; exact .numberText role n
    | bool b => cases b <;> cases hs <;> exact .truthText role _
    | _ => cases hs
  | int =>
    obtain ⟨n, hn, rfl⟩ := Option.map_eq_some_iff.1 h
    cases node with
    | string s => exact .numeral (readInt64?_eq_some_iff.1 hn)
    | number m => exact Json.Number.int64?_eq_some_iff.1 hn ▸ .integer n
    | _ => cases hn
  | bool spelling =>
    obtain ⟨b, hb, rfl⟩ := Option.map_eq_some_iff.1 h
    cases node with
    | bool b' => cases hb; exact .truth spelling b
    | string s =>
      cases spelling with
      | words => cases hb; exact .word s
      | digits => cases hb; exact .digit s
    | number n =>
      cases spelling with
      | words => cases hb
      | digits =>
        cases hb
        exact .number (by rw [beq_iff_eq, Json.Number.int64?_eq_some_iff])
    | _ => cases hb
  | list role =>
    obtain ⟨items, hitems, rfl⟩ := Option.map_eq_some_iff.1 h
    cases node with
    | string s => cases hitems; exact .words role s
    | array items' => cases hitems; exact .strings role items'
    | _ => cases hitems

/-- No JSON value spells two values of one kind. -/
theorem Spells.unique {node : Json} {v w : Value} (hv : Spells node v) (hw : Spells node w)
    (hk : v.kind = w.kind) : v = w :=
  Option.some.inj ((read?_of_spells hv).symm.trans (hk ▸ read?_of_spells hw))

theorem spells_toJson (v : Value) : Spells v.toJson v := spells_of_read? (read?_toJson v)

/-! ## Reading in place -/

namespace Value

/-- Whether a value reads a node. -/
def loads (v : Value) (node : Json) : Bool := (v.kind.read? node).isSome

theorem load_of_spells {v w : Value} {node : Json} (hk : v.kind = w.kind) (h : Spells node w) :
    v.loads node = true ∧ v.load node = w := by
  have hread : v.kind.read? node = some w := hk ▸ read?_of_spells h
  rw [loads, load, hread]
  exact ⟨rfl, rfl⟩

theorem load_of_not_loads {v : Value} {node : Json} (h : v.loads node = false) :
    v.load node = v := by
  rw [loads, Option.isSome_eq_false_iff, Option.isNone_iff_eq_none] at h
  rw [load, h, Option.getD_none]

theorem spells_load {v : Value} {node : Json} (h : v.loads node = true) :
    Spells node (v.load node) := by
  obtain ⟨w, hw⟩ := Option.isSome_iff_exists.1 h
  rw [load, hw, Option.getD_some]
  exact spells_of_read? hw

theorem loads_iff_spells {v : Value} {node : Json} :
    v.loads node = true ↔ Spells node (v.load node) :=
  ⟨spells_load, fun h => (load_of_spells (kind_load v node).symm h).1⟩

/-- What a node does to a value, and that it does the same to another value: the kind stays, the
node is read exactly if it spells what is then left, and otherwise nothing changes.  What is
written of the first value, or of what it has read, is read by the other one as that value. -/
structure ReadAlike (v w : Value) (node : Json) : Prop where
  kind : (v.load node).kind = v.kind
  spelled : v.loads node = true ↔ Spells node (v.load node)
  unread : v.loads node = false → v.load node = v
  sameAnswer : w.loads node = v.loads node
  sameValue : v.loads node = true → w.load node = v.load node
  written : w.loads v.toJson = true ∧ w.load v.toJson = v
  rewritten : w.loads (v.load node).toJson = true ∧ w.load (v.load node).toJson = v.load node

/-- Nothing of a value but its kind plays a part in reading, and what is written reads back. -/
theorem load_reread (v w : Value) (node : Json) (h : w.kind = v.kind) : ReadAlike v w node := by
  have hkind : w.kind = (v.load node).kind := h.trans (kind_load v node).symm
  exact
    { kind := kind_load v node
      spelled := loads_iff_spells
      unread := load_of_not_loads
      sameAnswer := by rw [loads, h, ← loads]
      sameValue := fun hv => (load_of_spells hkind (spells_load hv)).2
      written := load_of_spells h (spells_toJson v)
      rewritten := load_of_spells hkind (spells_toJson _) }

/-- A list of flags with blanks and an empty one, another, and a text that both read. -/
theorem load_reread_flags : (Value.list .flags ["x"]).kind = (Value.list .flags [" a", ""]).kind ∧
    (Value.list .flags [" a", ""]).loads (.string "b,, c") = true ∧
    ReadAlike (.list .flags [" a", ""]) (.list .flags ["x"]) (.string "b,, c") :=
  ⟨rfl, rfl, load_reread _ _ _ rfl⟩

end Value

/-! ## Lists -/

/-- The parts with a comma between neighbours. -/
def joined (parts : List String) : String :=
  String.ofList (Text.join ',' (parts.map String.toList))

/-- A text without the blanks at its ends. -/
def trimmed (s : String) : String := String.ofList (Text.trim s.toList)

/-- The parts without the blanks at their ends, as far as something is left of them. -/
def tidied (parts : List String) : List String := (parts.map trimmed).filter (· ≠ "")

theorem words_join {parts : List (List Char)} (h : ∀ part ∈ parts, ',' ∉ part) :
    words (Text.join ',' parts) = ((parts.map Text.trim).filter (· ≠ [])).map String.ofList := by
  cases parts with
  | nil => rfl
  | cons part parts => rw [words, Text.split_join (by simp) h]

theorem words_joined {parts : List String} (h : ∀ s ∈ parts, ',' ∉ s.toList) :
    words (joined parts).toList = tidied parts := by
  have hparts : ∀ part ∈ parts.map String.toList, ',' ∉ part := by
    rintro _ hpart
    obtain ⟨s, hs, rfl⟩ := List.mem_map.1 hpart
    exact h s hs
  rw [joined, String.toList_ofList, words_join hparts, tidied, List.map_map, List.filter_map,
    List.filter_map, List.map_map]
  congr 1
  refine List.filter_congr fun s _ => ?_
  simp [trimmed]

theorem filter_map_eq_self_iff {α : Type} {f : α → α} {p : α → Bool} {l : List α} :
    (l.map f).filter p = l ↔ ∀ a ∈ l, f a = a ∧ p a = true := by
  constructor
  · intro h
    have hall : ∀ a ∈ l.map f, p a = true := by
      rw [← List.length_filter_eq_length_iff, h, List.length_map]
    rw [List.filter_eq_self.2 hall] at h
    have hf : ∀ a ∈ l, f a = a := List.map_inj_left.1 (h.trans (List.map_id l).symm)
    exact fun a ha => ⟨hf a ha, hf a ha ▸ hall _ (List.mem_map_of_mem ha)⟩
  · intro h
    have hmap : l.map f = l := (List.map_congr_left fun a ha => (h a ha).1).trans (List.map_id l)
    rw [hmap, List.filter_eq_self]
    exact fun a ha => (h a ha).2

/-- A text that is not empty and has no blanks at its ends. -/
def IsWord (s : String) : Prop := trimmed s = s ∧ s ≠ ""

theorem tidied_eq_self_iff {parts : List String} :
    tidied parts = parts ↔ ∀ s ∈ parts, IsWord s := by
  simp only [tidied, filter_map_eq_self_iff, IsWord, decide_eq_true_eq]

/-- A list reads an array of strings as they are, and a text of parts between commas as the parts
without the blanks at their ends and without empty ones.  It comes to the same exactly if none of
the parts is empty or has a blank at an end. -/
theorem load_spellings (v : Value) (role : ListRole) (hv : v.kind = .list role)
    (parts : List String) (h : ∀ s ∈ parts, ',' ∉ s.toList) :
    v.loads (.array (parts.map .string)) = true ∧ v.loads (.string (joined parts)) = true ∧
      v.load (.array (parts.map .string)) = .list role parts ∧
      v.load (.string (joined parts)) = .list role (tidied parts) ∧
      (v.load (.array (parts.map .string)) = v.load (.string (joined parts)) ↔
        ∀ s ∈ parts, IsWord s) := by
  have harray : Spells (.array (parts.map .string)) (.list role parts) := by
    simpa only [filterMap_string?] using Spells.strings role (parts.map .string)
  have htext : Spells (.string (joined parts)) (.list role (tidied parts)) :=
    words_joined h ▸ Spells.words role (joined parts)
  obtain ⟨hloads, hload⟩ := Value.load_of_spells hv harray
  obtain ⟨hloads', hload'⟩ := Value.load_of_spells hv htext
  refine ⟨hloads, hloads', hload, hload', ?_⟩
  rw [hload, hload', ← tidied_eq_self_iff, Value.list.injEq, and_iff_right rfl, eq_comm]

namespace Samples

/-- Three parts, of which one begins with a blank and one is empty. -/
def spaced : List String := ["a", " b", ""]

end Samples

open Samples in
theorem load_spellings_spaced :
    (Value.list .flags ["x"]).kind = .list .flags ∧ (∀ s ∈ spaced, ',' ∉ s.toList) ∧
      (Value.list .flags ["x"]).loads (.array (spaced.map .string)) = true ∧
      (Value.list .flags ["x"]).loads (.string (joined spaced)) = true ∧
      (Value.list .flags ["x"]).load (.array (spaced.map .string)) = .list .flags spaced ∧
      (Value.list .flags ["x"]).load (.string (joined spaced)) = .list .flags (tidied spaced) ∧
      ((Value.list .flags ["x"]).load (.array (spaced.map .string)) =
          (Value.list .flags ["x"]).load (.string (joined spaced)) ↔ ∀ s ∈ spaced, IsWord s) := by
  have h : ∀ s ∈ spaced, ',' ∉ s.toList := by decide
  exact ⟨rfl, h, load_spellings _ .flags rfl spaced h⟩

/-- The array keeps the blank and the empty part, and the text `a, b,` gives the words `a` and
`b`. -/
theorem load_spaced_ne : (∀ s ∈ Samples.spaced, ',' ∉ s.toList) ∧
    (Value.list .flags []).load (.array (Samples.spaced.map .string)) ≠
      (Value.list .flags []).load (.string (joined Samples.spaced)) := by decide

end Setting

end LayerOverrides
