import LayerOverrides.Proofs.DeclaredVersions
import LayerOverrides.Proofs.OfferedSettings

/-!
# Settings of known kinds need not say them

A setting that the catalog declares is there, with its kind, before the document is read, and
reading keeps it there with that kind.  So what a declared setting says of its kind never counts,
and a setting that is not declared is read the same with and without kinds if it says that it is a
plain text (`readSetting_typed`).  Documents in which all of these do are the same configuration
in both generations that have a wrapper (`decode_stating_typed`).
-/

namespace LayerOverrides

/-! ## Look-up in objects with another version -/

namespace Json.Members

theorem get?_insertMember (key key' : String) (value : Json) : ∀ members : Json.Members,
    get? (insertMember key value members) key' = if key' = key then some value
      else members.get? key'
  | [] => by
    rw [insertMember, get?_cons]
  | (key₀, value₀) :: members => by
    unfold insertMember
    split
    · rename_i heq
      subst heq
      rw [get?_cons, get?_cons]
      split <;> rfl
    · rename_i hne
      split
      · rw [get?_cons]
      · rw [get?_cons, get?_cons, get?_insertMember key key' value members]
        by_cases hkey : key' = key
        · subst hkey
          rw [if_neg hne]
          simp
        · rw [if_neg hkey, if_neg hkey]

end Json.Members

/-! ## Declared settings -/

/-- Whether a catalog declares a setting for a layer; of two layers with one key the first
counts. -/
def Catalog.Declares (catalog : Catalog) (layer key : String) : Prop :=
  ∃ l, catalog.find? layer = some l ∧ key ∈ l.settings.map Definition.key

theorem Catalog.mem_keys_defaults_iff {catalog : Catalog} {layer key : String} :
    key ∈ (catalog.defaults layer).keys ↔ catalog.Declares layer key := by
  rw [catalog.keys_defaults, Catalog.declaredKeys, Catalog.Declares]
  cases catalog.find? layer with
  | none => simp
  | some l => simp

namespace Document

namespace Wrapped

variable {catalog : Catalog} {base s : SettingSet}

/-- Every setting of a layer that has a key which the catalog does not declare says that it is a
plain text. -/
def UndeclaredArePlain (catalog : Catalog) (body : Json.Members) : Prop :=
  ∀ layer : Json.Members, Json.object layer ∈ body.itemsAt "layers" → layer.textAt "name" ≠ "" →
    ∀ setting : Json.Members, Json.object setting ∈ layer.itemsAt "settings" →
      setting.textAt "key" ≠ "" →
      ¬ catalog.Declares (layer.textAt "name") (setting.textAt "key") →
        Setting.Kind.ofToken? (setting.textAt "type") = some (.text .plain)

/-- A key that is there has its kind, so any kind will do for it. -/
theorem readFields_typed_of_get? {key : String} {v : Setting.Value} (h : s.get? key = some v)
    (fields : Json.Members) : readFields true s key fields = readFields false s key fields := by
  obtain ⟨kind, hkind⟩ : ∃ kind, kind? true (fields.textAt "type")
      ((s.get? key).map Setting.Value.kind) = some kind := by
    rw [h, kind?, if_pos rfl]
    cases Setting.Kind.ofToken? (fields.textAt "type") with
    | none => exact ⟨v.kind, rfl⟩
    | some kind => exact ⟨kind, rfl⟩
  have hplain : kind? false (fields.textAt "type") ((s.get? key).map Setting.Value.kind) =
      some (.text .plain) := rfl
  simp only [readFields, hkind, hplain, SettingSet.create_of_get? h]

theorem readFields_typed_of_plain {key : String} {fields : Json.Members}
    (h : Setting.Kind.ofToken? (fields.textAt "type") = some (.text .plain)) :
    readFields true s key fields = readFields false s key fields := by
  have hkind : kind? true (fields.textAt "type") ((s.get? key).map Setting.Value.kind) =
      some (.text .plain) := by
    rw [kind?, if_pos rfl, h, Option.some_or]
  have hplain : kind? false (fields.textAt "type") ((s.get? key).map Setting.Value.kind) =
      some (.text .plain) := rfl
  simp only [readFields, hkind, hplain]

/-- In a set that goes on from the declared settings, a setting is read the same with and without
kinds if it is declared or says that it is a plain text. -/
theorem readSetting_typed (hs : base.Extends s) {node : Json}
    (h : ∀ fields : Json.Members, node = .object fields → fields.textAt "key" ≠ "" →
      fields.textAt "key" ∉ base.keys →
        Setting.Kind.ofToken? (fields.textAt "type") = some (.text .plain)) :
    readSetting true s node = readSetting false s node := by
  unfold readSetting
  split
  · rename_i fields
    split_ifs with hkey
    · rfl
    · by_cases hmem : Json.Members.textAt fields "key" ∈ base.keys
      · obtain ⟨v, hv⟩ := Option.isSome_iff_exists.1
          (SettingSet.isSome_get?.2 (hs.keys.subset hmem))
        exact readFields_typed_of_get? hv fields
      · exact readFields_typed_of_plain (h fields rfl hkey hmem)
  · rfl

theorem foldl_readSetting_typed : ∀ (nodes : List Json) {s : SettingSet}, base.Extends s →
    (∀ fields : Json.Members, Json.object fields ∈ nodes → fields.textAt "key" ≠ "" →
      fields.textAt "key" ∉ base.keys →
        Setting.Kind.ofToken? (fields.textAt "type") = some (.text .plain)) →
      nodes.foldl (readSetting true) s = nodes.foldl (readSetting false) s
  | [], _, _, _ => rfl
  | node :: nodes, s, hs, h => by
    have hnode : readSetting true s node = readSetting false s node :=
      readSetting_typed hs fun fields hfields => h fields (hfields ▸ List.mem_cons_self)
    rw [List.foldl_cons, List.foldl_cons, hnode]
    exact foldl_readSetting_typed nodes (extends_readSetting hs node)
      fun fields hfields => h fields (List.mem_cons_of_mem _ hfields)

theorem readLayer?_typed {body : Json.Members} (h : UndeclaredArePlain catalog body) {node : Json}
    (hnode : node ∈ body.itemsAt "layers") :
    readLayer? true catalog node = readLayer? false catalog node := by
  unfold readLayer?
  split
  · rename_i fields
    split_ifs with hname
    · rfl
    · have hsettings := foldl_readSetting_typed (Json.Members.itemsAt fields "settings")
        (SettingSet.extends_refl (catalog.defaults (Json.Members.textAt fields "name")))
        fun setting hsetting hkey hmem => h fields hnode hname setting hsetting hkey
          (Catalog.mem_keys_defaults_iff.not.1 hmem)
      rw [readFieldsOfLayer, readFieldsOfLayer, hsettings]
  · rfl

theorem configuration_typed {body : Json.Members} (h : UndeclaredArePlain catalog body) :
    configuration true catalog body = configuration false catalog body := by
  have hentries : entries true catalog body = entries false catalog body := by
    rw [entries, entries, List.filterMap_congr fun node hnode => readLayer?_typed h hnode]
  rw [configuration, configuration, hentries]

end Wrapped

/-! ## One document in two generations -/

/-- The document with another version in its version field. -/
def stating (v : Version) (members : Json.Members) : Json :=
  .object (Json.insertMember versionField (.string v.toText) members)

theorem body?_insertMember (value : Json) (members : Json.Members) :
    Wrapped.body? (Json.insertMember versionField value members) = Wrapped.body? members := by
  rw [Wrapped.body?, Json.Members.get?_insertMember, if_neg (by decide)]
  rfl

theorem decode_stating {v : Version} (hv : Version.ofString? v.toText = some v)
    (hg : Generation.ofVersion v ≠ .bare) {members body : Json.Members}
    (hbody : Wrapped.body? members = some body) (catalog : Catalog) (policy : LoadPolicy)
    (path : Path) :
    decode catalog policy path (stating v members) =
      .ok (Wrapped.configuration (Generation.ofVersion v = .typed) catalog body).order := by
  have hnode : Json.Members.get? (Json.insertMember versionField (.string v.toText) members)
      versionField = some (.string v.toText) := by
    rw [Json.Members.get?_insertMember, if_pos rfl]
  refine decode_of_some ?_
  rw [stating, configuration?_of_wrapped hg (version_of_stated hnode hv policy),
    body?_insertMember, hbody, Option.map_some]

end Document

/-- A document with a wrapper is the same configuration as one without kinds and as one with them,
if its settings that are not declared say that they are plain texts, whatever the others say. -/
theorem decode_stating_typed (catalog : Catalog) (policy : LoadPolicy) (path : Path)
    (members body : Json.Members) (hbody : Document.Wrapped.body? members = some body)
    (h : Document.Wrapped.UndeclaredArePlain catalog body) :
    ∃ c, Document.decode catalog policy path (Document.stating ⟨2, 1, 0⟩ members) = .ok c ∧
      Document.decode catalog policy path (Document.stating ⟨2, 2, 0⟩ members) = .ok c := by
  have huntyped := Document.decode_stating (v := ⟨2, 1, 0⟩) (by decide) (by decide) hbody catalog
    policy path
  have htyped := Document.decode_stating (v := ⟨2, 2, 0⟩) (by decide) (by decide) hbody catalog
    policy path
  have hfalse : decide (Generation.ofVersion ⟨2, 1, 0⟩ = .typed) = false := by decide
  have htrue : decide (Generation.ofVersion ⟨2, 2, 0⟩ = .typed) = true := by decide
  rw [hfalse] at huntyped
  rw [htrue, Document.Wrapped.configuration_typed h] at htyped
  exact ⟨_, huntyped, htyped⟩

namespace Samples

/-- Two values for a declared setting, with no kind and with a wrong one, a setting that is not
declared and says that it is a text, and one without a key, which does not count. -/
def untypedBody : Json.Members :=
  [("layers", .array [
    .object [("name", .string "A"), ("settings", .array [
      .object [("key", .string "limit"), ("type", .string "?"), ("value", .string "20")],
      .object [("key", .string "limit"), ("type", .string "FLAGS"), ("value", .string "30")],
      .object [("key", .string "extra"), ("type", .string " string "), ("value", .bool true)],
      .object [("type", .string "INT")]])],
    .null])]

def untyped : Json.Members := [("configuration", .object untypedBody)]

end Samples

theorem undeclaredArePlain_untypedBody :
    Document.Wrapped.UndeclaredArePlain Samples.catalog Samples.untypedBody := by
  have hlimit : Samples.catalog.Declares "A" "limit" := ⟨_, rfl, List.mem_cons_self⟩
  intro layer hlayer _ setting hsetting hkey hundeclared
  rcases List.mem_cons.1 hlayer with heq | hlayer
  · obtain rfl := Json.object.inj heq
    rcases List.mem_cons.1 hsetting with heq | hsetting
    · obtain rfl := Json.object.inj heq
      exact absurd hlimit hundeclared
    rcases List.mem_cons.1 hsetting with heq | hsetting
    · obtain rfl := Json.object.inj heq
      exact absurd hlimit hundeclared
    rcases List.mem_cons.1 hsetting with heq | hsetting
    · obtain rfl := Json.object.inj heq
      decide
    · obtain rfl := Json.object.inj (List.mem_singleton.1 hsetting)
      exact absurd rfl hkey
  · cases List.mem_singleton.1 hlayer

theorem decode_stating_untyped :
    Document.Wrapped.body? Samples.untyped = some Samples.untypedBody ∧
      Document.Wrapped.UndeclaredArePlain Samples.catalog Samples.untypedBody ∧
      ∃ c, Document.decode Samples.catalog .default .empty
          (Document.stating ⟨2, 1, 0⟩ Samples.untyped) = .ok c ∧
        Document.decode Samples.catalog .default .empty
          (Document.stating ⟨2, 2, 0⟩ Samples.untyped) = .ok c :=
  ⟨rfl, undeclaredArePlain_untypedBody, decode_stating_typed Samples.catalog .default .empty
    Samples.untyped Samples.untypedBody rfl undeclaredArePlain_untypedBody⟩

end LayerOverrides
