import LayerOverrides.Proofs.ByteOrder
import LayerOverrides.Proofs.FirstEntries

/-!
# Entries of bare documents

A bare document tells of a layer in two places: its options, which hold its rank and its settings,
and the list of layers that are excluded.  The entry of a layer is found by putting the two
together (`eq_entryOf_of_mem`), whatever else the document says.  In the options each key stands
once, so that a setting is offered once at most (`filter_offers`), and the settings that are not
declared come in the order of their bytes (`settingsFrom_foldl`).  This is all that there is to a
configuration from a bare document but the rank order (`decode_readFrom`).
-/

namespace LayerOverrides

theorem eraseDups_of_nodup {α : Type} [DecidableEq α] : ∀ {l : List α}, l.Nodup → l.eraseDups = l
  | [], _ => List.eraseDups_nil
  | a :: l, h => by
    obtain ⟨ha, hl⟩ := List.nodup_cons.1 h
    have hrest : (l.filter fun b => !b == a) = l := by
      refine List.filter_eq_self.2 fun b hb => ?_
      simpa using fun heq : b = a => ha (heq ▸ hb)
    rw [List.eraseDups_cons, hrest, eraseDups_of_nodup hl]

theorem Json.pairwise_of_sortedMembers : ∀ {members : Json.Members},
    sortedMembers members = true → (members.map Prod.fst).Pairwise fun a b => a < b
  | [], _ => .nil
  | (key, a) :: l, h => by
    obtain ⟨hlt, -, hl⟩ := sortedMembers_cons_iff.1 h
    refine List.pairwise_cons.2 ⟨fun key' hkey' => ?_, pairwise_of_sortedMembers hl⟩
    obtain ⟨m, hm, rfl⟩ := List.mem_map.1 hkey'
    exact hlt m hm

namespace Document

namespace Bare

variable {catalog : Catalog}

/-! ## Settings -/

/-- What a member of a layer's options offers: a setting, if it is an object with a legible kind
and not the rank. -/
def offer? (key : String) (node : Json) : Option Setting.Offer :=
  if key = rankField then none
  else match node with
    | .object fields => (Setting.Kind.ofToken? (Json.Members.textAt fields "type")).map
      fun kind => ⟨key, kind, (Json.Members.get? fields "default").getD .null⟩
    | _ => none

/-- What a layer's options offer for a key. -/
def offered? (options : Json.Members) (key : String) : Option Setting.Offer :=
  (options.get? key).bind (offer? key)

def offers (options : Json.Members) : List Setting.Offer :=
  options.filterMap fun m => offer? m.1 m.2

theorem readSetting_eq (s : SettingSet) (key : String) (node : Json) :
    readSetting s key node = ((offer? key node).map s.accept).getD s := by
  unfold readSetting offer?
  split_ifs
  · rfl
  · cases node with
    | object fields =>
      simp only []
      cases Setting.Kind.ofToken? (Json.Members.textAt fields "type") <;> rfl
    | _ => rfl

theorem foldl_readSetting_eq (options : Json.Members) (s : SettingSet) :
    options.foldl (fun s m => readSetting s m.1 m.2) s =
      (offers options).foldl SettingSet.accept s := by
  rw [offers, List.foldl_filterMap]
  congr 1
  funext s m
  rw [readSetting_eq]
  cases offer? m.1 m.2 <;> rfl

theorem key_of_offer? {key : String} {node : Json} {o : Setting.Offer}
    (h : offer? key node = some o) : o.key = key := by
  unfold offer? at h
  split_ifs at h
  split at h
  · obtain ⟨kind, -, rfl⟩ := Option.map_eq_some_iff.1 h
    rfl
  · cases h

/-- Of a key that stands once, there is one offer at most. -/
theorem filter_offers (key : String) : ∀ {options : Json.Members}, (options.map Prod.fst).Nodup →
    ((offers options).filter fun o => o.key == key) = (offered? options key).toList
  | [], _ => rfl
  | (key', node) :: options, h => by
    obtain ⟨hkey', hn⟩ := List.nodup_cons.1 h
    have ih := filter_offers key hn
    have hoffers : offers ((key', node) :: options) =
        (offer? key' node).toList ++ offers options := by
      rw [offers, List.filterMap_cons]
      cases offer? key' node <;> rfl
    rw [hoffers, List.filter_append, ih, offered?, offered?, Json.Members.get?_cons]
    by_cases hkey : key = key'
    · subst hkey
      rw [if_pos rfl, Json.Members.get?_eq_none_iff.2 hkey', Option.bind_none, Option.bind_some]
      cases ho : offer? key node with
      | none => rfl
      | some o => simp [key_of_offer? ho]
    · rw [if_neg hkey]
      cases ho : offer? key' node with
      | none => rfl
      | some o => simp [key_of_offer? ho, Ne.symm hkey]

theorem find?_offers {options : Json.Members} (h : (options.map Prod.fst).Nodup) (key : String) :
    ((offers options).find? fun o => o.key == key) = offered? options key := by
  rw [← List.head?_filter, filter_offers key h]
  cases offered? options key <;> rfl

theorem sublist_offers : ∀ options : Json.Members,
    ((offers options).map Setting.Offer.key).Sublist (options.map Prod.fst)
  | [] => .slnil
  | (key, node) :: options => by
    have ih := sublist_offers options
    unfold offers at ih ⊢
    rw [List.filterMap_cons]
    cases ho : offer? key node with
    | none => exact ih.cons key
    | some o =>
      have hkey : o.key = key := key_of_offer? ho
      rw [List.map_cons, List.map_cons, hkey]
      exact ih.cons_cons key

/-- A set comes from the options of a layer.  Behind the declared keys come those that are offered
and not declared, in the order of their bytes.  A declared key has its declared kind, and another
the one that is offered.  The value is the one offered, if that spells the kind, or else the
declared default, or an empty value if none is declared. -/
structure SettingsFrom (catalog : Catalog) (layer : String) (options : Json.Members)
    (s : SettingSet) : Prop where
  keys : ∃ others, s.keys = catalog.declaredKeys layer ++ others ∧
    others.Pairwise (fun a b => Text.bytes a < Text.bytes b) ∧
    ∀ key, key ∈ others ↔
      key ∉ catalog.declaredKeys layer ∧ (offered? options key).isSome
  kind_declared : ∀ {key d v}, (catalog.defaults layer).get? key = some d →
    s.get? key = some v → v.kind = d.kind
  kind_offered : ∀ {key v}, key ∉ catalog.declaredKeys layer → s.get? key = some v →
    ∃ o, offered? options key = some o ∧ v.kind = o.kind
  value : ∀ {key v}, s.get? key = some v →
    v = ((offered? options key).bind fun o => v.kind.read? o.node).getD
      (((catalog.defaults layer).get? key).getD v.kind.empty)

theorem settingsFrom_foldl (catalog : Catalog) (layer : String) {options : Json.Members}
    (hs : Json.sortedMembers options = true) : SettingsFrom catalog layer options
      (options.foldl (fun s m => readSetting s m.1 m.2) (catalog.defaults layer)) := by
  have hn := Json.nodup_of_sortedMembers hs
  have h := SettingSet.takesUp_foldl (catalog.defaults layer) (offers options)
  rw [← foldl_readSetting_eq] at h
  have hascending : ((offers options).map Setting.Offer.key).Pairwise fun a b => a < b :=
    (Json.pairwise_of_sortedMembers hs).sublist (sublist_offers options)
  refine ⟨⟨((offers options).map Setting.Offer.key).filter fun key =>
      key ∉ catalog.declaredKeys layer, ?_, ?_, fun key => ?_⟩, h.kind_old,
    fun {key v} hkey hv => ?_, fun {key v} hv => ?_⟩
  · rw [h.keys, eraseDups_of_nodup ((hn.sublist (sublist_offers options)).filter _),
      catalog.keys_defaults]
  · exact (hascending.filter _).imp Text.bytes_lt_bytes
  · have hmem : key ∈ (offers options).map Setting.Offer.key ↔ (offered? options key).isSome := by
      rw [← find?_offers hn, List.find?_isSome]
      simp
    rw [List.mem_filter, hmem, decide_eq_true_eq, and_comm]
  · rw [← catalog.keys_defaults] at hkey
    rw [← find?_offers hn]
    exact h.kind_new (SettingSet.get?_eq_none_iff.2 hkey) hv
  · have hvalue := h.value hv
    rw [filter_offers key hn] at hvalue
    cases ho : offered? options key with
    | none =>
      rw [ho] at hvalue
      exact hvalue
    | some o =>
      rw [ho] at hvalue
      simpa using hvalue

/-! ## Entries -/

/-- The members of a layer's options; a layer without options has none, nor does one whose options
are no object. -/
def optionsOf (body : Json.Members) (layer : String) : Json.Members :=
  (body.membersAt "layer_options").membersAt layer

def excludedLayers (body : Json.Members) : List String :=
  (body.itemsAt "blacklisted_layers").filterMap Json.string?

/-- The entry of a layer, from its options and the list of layers that are excluded. -/
def entryOf (catalog : Catalog) (body : Json.Members) (layer : String) : LayerEntry where
  layer := layer
  state := if layer ∈ excludedLayers body then .excluded else .overridden
  rank := (optionsOf body layer).rankAt rankField
  platforms := .all
  settings := (optionsOf body layer).foldl (fun s m => readSetting s m.1 m.2)
    (catalog.defaults layer)

theorem find?_exclude (layer key : String) : ∀ entries : List LayerEntry,
    (exclude catalog layer entries).find? (fun e => e.layer == key) =
      if key = layer then
        some { (entries.find? fun e => e.layer == key).getD
          (LayerEntry.seeded catalog key .excluded) with state := .excluded }
      else entries.find? fun e => e.layer == key
  | [] => by
    rw [exclude]
    split_ifs with h
    · simp [h, LayerEntry.seeded]
    · simp [LayerEntry.seeded, Ne.symm h]
  | e :: entries => by
    have ih := find?_exclude layer key entries
    rw [exclude]
    by_cases he : e.layer = layer
    · subst he
      rw [if_pos rfl]
      by_cases h : key = e.layer
      · simp [h]
      · simp [h, Ne.symm h]
    · rw [if_neg he]
      by_cases hkey : e.layer = key
      · simp [hkey, hkey ▸ he]
      · rw [List.find?_cons_of_neg (by simpa using hkey), ih,
          List.find?_cons_of_neg (by simpa using hkey)]

theorem find?_foldl_exclude (key : String) : ∀ (layers : List String) (entries : List LayerEntry),
    (layers.foldl (fun entries layer => exclude catalog layer entries) entries).find?
        (fun e => e.layer == key) =
      if key ∈ layers then
        some { (entries.find? fun e => e.layer == key).getD
          (LayerEntry.seeded catalog key .excluded) with state := .excluded }
      else entries.find? fun e => e.layer == key
  | [], entries => by simp
  | layer :: layers, entries => by
    rw [List.foldl_cons, find?_foldl_exclude key layers, find?_exclude]
    by_cases h : key = layer
    · simp [h]
    · simp [h]

theorem find?_map_readLayer (key : String) : ∀ options : Json.Members,
    (options.map fun m => readLayer catalog m.1 m.2).find? (fun e => e.layer == key) =
      (options.get? key).map (readLayer catalog key)
  | [] => rfl
  | (key', node) :: options => by
    rw [List.map_cons, Json.Members.get?_cons]
    by_cases h : key = key'
    · rw [if_pos h, List.find?_cons_of_pos (by simp [readLayer, LayerEntry.seeded, h]), h]
      rfl
    · rw [if_neg h, List.find?_cons_of_neg (by simp [readLayer, LayerEntry.seeded, Ne.symm h]),
        find?_map_readLayer key options]

/-- An entry of a configuration is the one that the document tells of its layer. -/
theorem eq_entryOf_of_mem {body : Json.Members} (hs : Json.sortedMembers body = true)
    {e : LayerEntry} (he : e ∈ entries catalog body) : e = entryOf catalog body e.layer := by
  have hn : ((entries catalog body).map LayerEntry.layer).Nodup :=
    nodup_entries (body.sortedMembers_membersAt hs "layer_options")
  have hfind := (find?_key_eq_some_iff hn).2 ⟨he, rfl⟩
  generalize e.layer = layer at hfind
  rw [entries, find?_foldl_exclude, find?_map_readLayer] at hfind
  unfold entryOf optionsOf excludedLayers
  rw [Json.Members.membersAt]
  cases hget : (body.membersAt "layer_options").get? layer with
  | none =>
    rw [hget] at hfind
    split_ifs at hfind with hmem
    · obtain rfl := Option.some.inj hfind
      rw [if_pos hmem]
      rfl
    · cases hfind
  | some options =>
    rw [hget] at hfind
    split_ifs at hfind with hmem <;> obtain rfl := Option.some.inj hfind
    · rw [if_pos hmem]
      rfl
    · rw [if_neg hmem]
      rfl

/-- The layers of a document in order: those with options, and behind them the others that are
excluded, each where it is first listed. -/
def layers (body : Json.Members) : List String :=
  (body.membersAt "layer_options").map Prod.fst ++ ((excludedLayers body).filter
    fun layer => layer ∉ (body.membersAt "layer_options").map Prod.fst).eraseDups

theorem layers_entries (catalog : Catalog) (body : Json.Members) :
    (entries catalog body).map LayerEntry.layer = layers body := by
  have hoptions : ((body.membersAt "layer_options").map fun m => readLayer catalog m.1 m.2).map
      LayerEntry.layer = (body.membersAt "layer_options").map Prod.fst := layers_readLayer _
  rw [entries, layers, ← foldl_addOnce, ← hoptions]
  exact (List.foldl_hom (List.map LayerEntry.layer) fun entries layer =>
    (layers_exclude layer entries).symm).symm

/-- The entries are one for each layer that has options or is excluded.  Each is excluded or
overridden, has the rank in its options, is for all platforms, and has the settings that come from
its options. -/
structure ReadFrom (catalog : Catalog) (body : Json.Members) (entries : List LayerEntry) :
    Prop where
  nodup : (entries.map LayerEntry.layer).Nodup
  mem_layers : ∀ layer, layer ∈ entries.map LayerEntry.layer ↔
    layer ∈ (body.membersAt "layer_options").map Prod.fst ∨ layer ∈ excludedLayers body
  state : ∀ e ∈ entries,
    e.state = if e.layer ∈ excludedLayers body then .excluded else .overridden
  rank : ∀ e ∈ entries, e.rank = (optionsOf body e.layer).rankAt rankField
  platforms : ∀ e ∈ entries, e.platforms = .all
  settings : ∀ e ∈ entries, SettingsFrom catalog e.layer (optionsOf body e.layer) e.settings

theorem readFrom_ordered {body : Json.Members} (hs : Json.sortedMembers body = true) :
    ReadFrom catalog body (ordered (entries catalog body)) := by
  have hoptions := body.sortedMembers_membersAt hs "layer_options"
  have hperm : (ordered (entries catalog body)).Perm (entries catalog body) := sortBy_perm _ _
  have hentry : ∀ e ∈ ordered (entries catalog body), e = entryOf catalog body e.layer :=
    fun e he => eq_entryOf_of_mem hs (mem_ordered.1 he)
  refine ⟨nodup_layer_ordered (nodup_entries hoptions), fun layer => ?_, fun e he => ?_,
    fun e he => ?_, fun e he => ?_, fun e he => ?_⟩
  · rw [(hperm.map LayerEntry.layer).mem_iff, layers_entries, layers,
      List.mem_append, List.mem_eraseDups, List.mem_filter, decide_eq_true_eq]
    by_cases h : layer ∈ (body.membersAt "layer_options").map Prod.fst <;> simp [h]
  · exact congrArg LayerEntry.state (hentry e he)
  · exact congrArg LayerEntry.rank (hentry e he)
  · exact congrArg LayerEntry.platforms (hentry e he)
  · rw [congrArg LayerEntry.settings (hentry e he)]
    exact settingsFrom_foldl catalog e.layer (Json.Members.sortedMembers_membersAt hoptions _)

end Bare

end Document

/-- A bare document with a body is read as the rank order of its entries: one for each layer that
it tells of, with all that it tells of the layer. -/
theorem decode_readFrom (catalog : Catalog) (policy : LoadPolicy) (path : Path)
    (members body : Json.Members) (hs : (Json.object members).sorted = true)
    (hg : Generation.ofVersion (Document.version policy (.object members)) = .bare)
    (hbody : Document.Bare.body? members = some body) :
    ∃ c entries, Document.decode catalog policy path (.object members) = .ok c ∧
      IsRankOrderOf c.entries entries ∧
      entries.map LayerEntry.layer = Document.Bare.layers body ∧
      Document.Bare.ReadFrom catalog body c.entries := by
  have hsorted := Document.sortedMembers_of_body? hs hbody
  have hread := Document.configuration?_of_bare hg catalog path
  rw [hbody, Option.map_some] at hread
  exact ⟨_, _, Document.decode_of_some hread, isRankOrderOf_ordered _,
    Document.Bare.layers_entries catalog body, Document.Bare.readFrom_ordered hsorted⟩

namespace Samples

/-- Options for a layer that is excluded as well: a setting that is not declared, a value for a
declared one that is of another kind, and one without a legible kind; options that are no object;
and exclusions of which one is listed twice and one is no text. -/
def optionsBody : Json.Members :=
  [("blacklisted_layers", .array [.string "B", .null, .string "A", .string "B"]),
    ("layer_options", .object [
      ("A", .object [
        ("extra", .object [("default", .string "x, y"), ("type", .string "multi_enum")]),
        ("layer_rank", .string "2"),
        ("limit", .object [("default", .string "20"), ("type", .string "?")]),
        ("mode", .object [("default", .bool true), ("type", .string "INT")])]),
      ("C", .string "none")])]

def optionsDocument : Json.Members :=
  [("c", .object optionsBody), ("file_format_version", .string "2.0.2")]

end Samples

open Samples in
theorem decode_readFrom_optionsBody :
    (Json.object optionsDocument).sorted = true ∧
      Generation.ofVersion (Document.version .default (.object optionsDocument)) = .bare ∧
      Document.Bare.body? optionsDocument = some optionsBody ∧
      ∃ c entries, Document.decode catalog .default .empty (.object optionsDocument) = .ok c ∧
        IsRankOrderOf c.entries entries ∧
        entries.map LayerEntry.layer = Document.Bare.layers optionsBody ∧
        Document.Bare.ReadFrom catalog optionsBody c.entries := by
  have hs : (Json.object optionsDocument).sorted = true := by decide
  have hg : Generation.ofVersion (Document.version .default (.object optionsDocument)) =
      .bare := by decide
  exact ⟨hs, hg, rfl, decode_readFrom catalog .default .empty optionsDocument optionsBody hs hg rfl⟩

end LayerOverrides
