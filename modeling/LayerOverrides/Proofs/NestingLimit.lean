import LayerOverrides.Proofs.SavedFiles
import LayerOverrides.Proofs.WrittenTokens

/-!
# Which written values can be read

The text of a value is read as a value again exactly if its containers lie no deeper than the
reader's limit (`ofString?_toText_eq_ite`).  A document puts the editor state two containers deep,
and all else in it stays far from the limit (`depth_encode_le_iff`), so a saved file can be read
exactly if the editor state leaves room for those two (`read_of_save`).  The writer has no such
limit: a state that can still be read as a text of its own is saved to a file that cannot
(`read_deepSaved`).
-/

namespace LayerOverrides

namespace Json

mutual

/-- The value that the text of a value stands for: numbers as they are read, and each key of an
object once. -/
def reread : Json → Json
  | .null => .null
  | .bool b => .bool b
  | .number n => .number n.reread
  | .string s => .string s
  | .array items => .array (rereadItems items)
  | .object members => .object (rereadMembers [] members)

def rereadItems : List Json → List Json
  | [] => []
  | a :: l => a.reread :: rereadItems l

/-- The members that are read on top of those before. -/
def rereadMembers (before : List (String × Json)) : List (String × Json) → List (String × Json)
  | [] => before
  | (key, a) :: l => rereadMembers (insertMember key a.reread before) l

end

namespace Reader

/-- The first token of a value does not end an array. -/
theorem foldlM_firstItem (value : Json) (frames : List Frame) (rest : List Token) :
    (tokens value ++ rest).foldlM step (.firstItem frames) =
      (tokens value ++ rest).foldlM step (.value (.array [] :: frames)) := by
  cases value with
  | array items => cases items <;> rfl
  | object members => cases members <;> rfl
  | _ => rfl

theorem ite_ite_none {α : Type} {p q : Prop} [Decidable p] [Decidable q] (x : Option α) :
    (if p then (if q then x else none) else none) = if p ∧ q then x else none := by
  by_cases hp : p <;> simp [hp]

/-- A container is opened if there is room for one more. -/
theorem foldlM_beginArray (frames : List Frame) (rest : List Token) :
    (.beginArray :: rest).foldlM step (.value frames) =
      if frames.length < maxDepth then rest.foldlM step (.firstItem frames) else none := by
  rw [List.foldlM_cons, step, begin]
  split <;> rfl

theorem foldlM_beginObject (frames : List Frame) (rest : List Token) :
    (.beginObject :: rest).foldlM step (.value frames) =
      if frames.length < maxDepth then rest.foldlM step (.firstKey frames) else none := by
  rw [List.foldlM_cons, step, begin]
  split <;> rfl

/-- A scalar opens no container. -/
theorem foldlM_scalar (value : Json) {token : Token} {frames : List Frame}
    (hbegin : begin frames token = some (complete value.reread frames)) (hdepth : value.depth = 0)
    (rest : List Token) (h : frames.length ≤ maxDepth) :
    (token :: rest).foldlM step (.value frames) =
      if frames.length + value.depth ≤ maxDepth then
        rest.foldlM step (complete value.reread frames)
      else none := by
  rw [hdepth, Nat.add_zero, if_pos h, List.foldlM_cons, step, hbegin]
  rfl

mutual

/-- The tokens of a value make that value if its containers may still be opened. -/
theorem foldlM_tokens : ∀ (value : Json) (frames : List Frame) (rest : List Token),
    frames.length ≤ maxDepth → (tokens value ++ rest).foldlM step (.value frames) =
      if frames.length + value.depth ≤ maxDepth then
        rest.foldlM step (complete value.reread frames)
      else none
  | .null, _, rest, h => foldlM_scalar .null rfl rfl rest h
  | .bool b, _, rest, h => foldlM_scalar (.bool b) rfl rfl rest h
  | .number n, _, rest, h => foldlM_scalar (.number n) rfl rfl rest h
  | .string s, _, rest, h => foldlM_scalar (.string s) rfl rfl rest h
  | .array [], frames, rest, _ => foldlM_beginArray frames (.endArray :: rest)
  | .array (a :: l), frames, rest, _ => by
    have htokens : tokens (.array (a :: l)) ++ rest =
        .beginArray :: (tokens a ++ (itemTokens l ++ .endArray :: rest)) := by
      simp [tokens]
    have hdepth : (Json.array (a :: l)).depth = max a.depth (depthItems l) + 1 := rfl
    rw [htokens, foldlM_beginArray]
    by_cases hlt : frames.length < maxDepth
    · rw [if_pos hlt, foldlM_firstItem, foldlM_tokens a (.array [] :: frames) _ hlt, complete,
        foldlM_itemTokens l _ _ rest hlt, ite_ite_none]
      -- room for the first item, and room for the others
      refine if_congr ?_ rfl rfl
      rw [List.length_cons]
      omega
    · rw [if_neg hlt, if_neg (by omega)]
  | .object [], frames, rest, _ => foldlM_beginObject frames (.endObject :: rest)
  | .object ((key, a) :: l), frames, rest, _ => by
    have htokens : tokens (.object ((key, a) :: l)) ++ rest =
        .beginObject :: .text key :: .colon ::
          (tokens a ++ (memberTokens l ++ .endObject :: rest)) := by
      simp [tokens]
    have hkey : ∀ rest : List Token, (.text key :: .colon :: rest).foldlM step (.firstKey frames) =
        rest.foldlM step (.value (.object [] key :: frames)) := fun _ => rfl
    have hdepth : (Json.object ((key, a) :: l)).depth = max a.depth (depthMembers l) + 1 := rfl
    rw [htokens, foldlM_beginObject]
    by_cases hlt : frames.length < maxDepth
    · rw [if_pos hlt, hkey, foldlM_tokens a (.object [] key :: frames) _ hlt, complete,
        foldlM_memberTokens l _ _ rest hlt, ite_ite_none]
      refine if_congr ?_ rfl rfl
      rw [List.length_cons]
      omega
    · rw [if_neg hlt, if_neg (by omega)]

theorem foldlM_itemTokens : ∀ (items latest : List Json) (frames : List Frame)
    (rest : List Token), frames.length < maxDepth →
      (itemTokens items ++ .endArray :: rest).foldlM step (.nextItem latest frames) =
        if frames.length + 1 + depthItems items ≤ maxDepth then
          rest.foldlM step (complete (.array (latest.reverse ++ rereadItems items)) frames)
        else none
  | [], latest, frames, rest, h => by
    rw [depthItems, if_pos (Nat.succ_le_of_lt h), rereadItems, List.append_nil]
    rfl
  | a :: l, latest, frames, rest, h => by
    have htokens : itemTokens (a :: l) ++ .endArray :: rest =
        .comma :: (tokens a ++ (itemTokens l ++ .endArray :: rest)) := by
      simp [itemTokens]
    have hcomma : step (.nextItem latest frames) .comma =
        some (.value (.array latest :: frames)) := rfl
    rw [htokens, List.foldlM_cons, hcomma, Option.bind_eq_bind, Option.bind_some,
      foldlM_tokens a (.array latest :: frames) _ h, complete, foldlM_itemTokens l _ _ rest h,
      ite_ite_none, depthItems, rereadItems, List.reverse_cons, List.append_assoc]
    refine if_congr ?_ rfl rfl
    rw [List.length_cons]
    omega

theorem foldlM_memberTokens : ∀ (members before : List (String × Json)) (frames : List Frame)
    (rest : List Token), frames.length < maxDepth →
      (memberTokens members ++ .endObject :: rest).foldlM step (.nextMember before frames) =
        if frames.length + 1 + depthMembers members ≤ maxDepth then
          rest.foldlM step (complete (.object (rereadMembers before members)) frames)
        else none
  | [], before, frames, rest, h => by
    rw [depthMembers, if_pos (Nat.succ_le_of_lt h)]
    rfl
  | (key, a) :: l, before, frames, rest, h => by
    have htokens : memberTokens ((key, a) :: l) ++ .endObject :: rest =
        .comma :: .text key :: .colon :: (tokens a ++ (memberTokens l ++ .endObject :: rest)) := by
      simp [memberTokens]
    have hkey : ∀ rest : List Token,
        (.comma :: .text key :: .colon :: rest).foldlM step (.nextMember before frames) =
          rest.foldlM step (.value (.object before key :: frames)) := fun _ => rfl
    rw [htokens, hkey, foldlM_tokens a (.object before key :: frames) _ h, complete,
      foldlM_memberTokens l _ _ rest h, ite_ite_none, depthMembers, rereadMembers]
    refine if_congr ?_ rfl rfl
    rw [List.length_cons]
    omega

end

end Reader

theorem ofTokens?_tokens (value : Json) :
    ofTokens? (tokens value) = if value.depth ≤ maxDepth then some value.reread else none := by
  have h := Reader.foldlM_tokens value [] [] (Nat.zero_le _)
  rw [List.append_nil, List.length_nil, Nat.zero_add] at h
  rw [ofTokens?, h]
  split <;> rfl

/-- A written value is read if its containers lie no deeper than the limit, and only then. -/
theorem ofString?_toText_eq_ite (layout : Layout) (value : Json) :
    ofString? (value.toText layout) =
      if value.depth ≤ maxDepth then some value.reread else none := by
  rw [ofString?, toText, String.toList_ofList, ofText?, Token.scan_text, Option.bind_some,
    ofTokens?_tokens]

/-! ## The depth of documents -/

theorem depthItems_le {n : Nat} : ∀ {items : List Json}, (∀ a ∈ items, a.depth ≤ n) →
    depthItems items ≤ n
  | [], _ => Nat.zero_le n
  | _ :: _, h => Nat.max_le.2
    ⟨h _ List.mem_cons_self, depthItems_le fun b hb => h b (List.mem_cons_of_mem _ hb)⟩

end Json

namespace Document

open Json

theorem depth_strings (l : List String) : (strings l).depth ≤ 1 := by
  have hitems : ∀ a ∈ l.map Json.string, a.depth ≤ 0 := by simp [depth]
  exact Nat.succ_le_succ (depthItems_le hitems)

theorem depth_toJson (v : Setting.Value) : v.toJson.depth ≤ 1 := by
  cases v with
  | list role items => exact depth_strings items
  | _ => exact Nat.zero_le 1

theorem depth_encodeSetting (s : Setting) : (encodeSetting s).depth ≤ 2 := by
  have hvalue := depth_toJson s.value
  simp only [encodeSetting, depth, depthMembers]
  omega

theorem depth_encodeLayer (e : LayerEntry) : (encodeLayer e).depth ≤ 4 := by
  have hplatforms := depth_strings e.platforms.tokens
  have hsettings : depthItems (e.settings.settings.map encodeSetting) ≤ 2 :=
    depthItems_le (List.forall_mem_map.2 fun s _ => depth_encodeSetting s)
  simp only [encodeLayer, depth, depthMembers]
  omega

/-- The editor state lies in two containers, and it is what can make a document deep. -/
theorem depth_encode_le_iff (c : Configuration) :
    (encode c).depth ≤ maxDepth ↔ c.editorState.depth + 2 ≤ maxDepth := by
  have hplatforms := depth_strings c.platforms.tokens
  have hlayers : depthItems ((kept c.entries).map encodeLayer) ≤ 4 :=
    depthItems_le (List.forall_mem_map.2 fun e _ => depth_encodeLayer e)
  simp only [encode, depth, depthMembers, maxDepth]
  omega

end Document

/-! ## Files -/

/-- A value that is written to a file is read from it exactly if it is not too deep. -/
theorem Storage.read_of_write {t t' : FileTree} {p : Path} {layout : Json.Layout} {value : Json}
    (h : Storage.write t p (value.toText layout) = (t', .ok ())) :
    Storage.read t' p =
      if value.depth ≤ Json.maxDepth then .ok value.reread else .error .parse := by
  rw [Storage.read, Storage.readText_of_write h]
  simp only [Json.ofString?_toText_eq_ite]
  split
  · rename_i root hroot
    split at hroot <;> cases hroot
    rw [if_pos ‹_›]
  · rename_i hroot
    split at hroot <;> cases hroot
    rw [if_neg ‹_›]

/-- A saved file is read as the document of the configuration, or cannot be parsed; it can exactly
if the editor state leaves room for two containers around it. -/
theorem read_of_save {c : Configuration} {layout : Json.Layout} {t t' : FileTree} {p : Path}
    (h : c.save layout t p = (t', .ok ())) :
    Storage.read t' p =
      if c.editorState.depth + 2 ≤ Json.maxDepth then .ok (Document.encode c).reread
      else .error .parse := by
  rw [Storage.read_of_write h]
  exact if_congr (Document.depth_encode_le_iff c) rfl rfl

namespace Samples

/-- Arrays within each other, around a null. -/
def nested : (depth : Nat) → Json
  | 0 => .null
  | depth + 1 => .array [nested depth]

theorem depth_nested : ∀ n : Nat, (nested n).depth = n
  | 0 => rfl
  | n + 1 => by
    have h := depth_nested n
    simp only [nested, Json.depth, Json.depthItems]
    omega

theorem reread_nested : ∀ n : Nat, (nested n).reread = nested n
  | 0 => rfl
  | n + 1 => by rw [nested, Json.reread, Json.rereadItems, Json.rereadItems, reread_nested n]

/-- A configuration with an editor state of a given depth. -/
def deep (depth : Nat) : Configuration :=
  { Configuration.named "x" with editorState := nested depth }

theorem depth_deep (depth : Nat) : (deep depth).editorState.depth = depth := depth_nested depth

def deepFile : Path := .ofString "x.json"

/-- The tree with nothing but the file of a deep configuration. -/
def deepSaved (depth : Nat) : FileTree := ((deep depth).save .pretty .empty deepFile).1

theorem write_deepFile (content : String) :
    (Storage.write .empty deepFile content).2 = .ok () := rfl

theorem save_deep (depth : Nat) :
    (deep depth).save .pretty .empty deepFile = (deepSaved depth, .ok ()) :=
  Prod.ext rfl (write_deepFile _)

end Samples

open Samples

theorem read_of_save_deep :
    (deep 125).save .pretty .empty deepFile = (deepSaved 125, .ok ()) ∧
      Storage.read (deepSaved 125) deepFile = .ok (Document.encode (deep 125)).reread := by
  have h := read_of_save (save_deep 125)
  rw [depth_deep, if_pos (by decide)] at h
  exact ⟨save_deep 125, h⟩

/-- A state that can be read as a text of its own is saved to a file that cannot be read. -/
theorem read_deepSaved :
    Json.ofString? ((nested 126).toText .compact) = some (nested 126) ∧
      (deep 126).save .pretty .empty deepFile = (deepSaved 126, .ok ()) ∧
      Storage.read (deepSaved 126) deepFile = .error .parse := by
  refine ⟨?_, save_deep 126, ?_⟩
  · rw [Json.ofString?_toText_eq_ite, depth_nested, if_pos (by decide), reread_nested]
  · have hdepth : ¬ (Document.encode (deep 126)).depth ≤ Json.maxDepth := by
      rw [Document.depth_encode_le_iff, depth_deep]
      decide
    rw [Storage.read_of_write (save_deep 126), if_neg hdepth]

end LayerOverrides
