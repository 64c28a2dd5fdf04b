import LayerOverrides.Proofs.FirstEntries

/-!
# Settings of typed documents

A setting of a typed document counts if it is an object with a key that states a legible kind, or
whose key is known: from the catalog, or from a setting in front of it that counts.  What a setting
states tells the kind of its key only if it is the first that counts for a key which is not
declared, and that one states a legible kind (`exists_kind_of_find?_accepted`).  So reading the
settings is taking up the ones that count (`foldl_readFields`), and what comes of it is told
without going through them one by one (`decode_mergedSettings`).
-/

namespace LayerOverrides

namespace Document

namespace Wrapped

variable {catalog : Catalog}

/-- The settings that count, in their order: those that state a legible kind, and those whose key
is known, be it from one in front that counts. -/
def accepted (known : List String) : List Json.Members → List Json.Members
  | [] => []
  | fields :: rest =>
    if (Setting.Kind.ofToken? (fields.textAt "type")).isSome ∨ fields.textAt "key" ∈ known then
      fields :: accepted (fields.textAt "key" :: known) rest
    else accepted known rest

/-- The settings of an array that count for a layer. -/
def settingsFor (catalog : Catalog) (layer : String) (nodes : List Json) : List Json.Members :=
  accepted (catalog.declaredKeys layer) (nodes.filterMap (Json.named? "key"))

/-- What a setting that counts offers.  Without a legible kind it is for a key that is there, so
that any kind will do. -/
def offerOf (fields : Json.Members) : Setting.Offer where
  key := fields.textAt "key"
  kind := (Setting.Kind.ofToken? (fields.textAt "type")).getD (.text .plain)
  node := (fields.get? "value").getD .null

/-! ## Reading is taking up -/

theorem readFields_eq_load {typed : Bool} {s : SettingSet} {key : String} {fields : Json.Members}
    {kind : Setting.Kind}
    (h : kind? typed (fields.textAt "type") ((s.get? key).map Setting.Value.kind) = some kind) :
    readFields typed s key fields =
      (s.create key kind).load key ((fields.get? "value").getD .null) := by
  unfold readFields
  simp only [h]
  cases fields.get? "value" with
  | some node => rfl
  | none => exact (SettingSet.load_null _ _).symm

theorem readFields_of_accepted {s : SettingSet} {fields : Json.Members}
    (h : (Setting.Kind.ofToken? (fields.textAt "type")).isSome ∨ fields.textAt "key" ∈ s.keys) :
    readFields true s (fields.textAt "key") fields = s.accept (offerOf fields) := by
  cases htoken : Setting.Kind.ofToken? (fields.textAt "type") with
  | some kind =>
    have hkind : kind? true (fields.textAt "type")
        ((s.get? (fields.textAt "key")).map Setting.Value.kind) = some kind := by
      rw [kind?, if_pos rfl, htoken, Option.some_or]
    rw [readFields_eq_load hkind, SettingSet.accept, offerOf, htoken, Option.getD_some]
  | none =>
    rw [htoken] at h
    obtain ⟨v, hv⟩ := Option.isSome_iff_exists.1
      (SettingSet.isSome_get?.2 (h.resolve_left Bool.false_ne_true))
    have hkind : kind? true (fields.textAt "type")
        ((s.get? (fields.textAt "key")).map Setting.Value.kind) = some v.kind := by
      rw [kind?, if_pos rfl, htoken, hv, Option.none_or, Option.map_some]
    rw [readFields_eq_load hkind, SettingSet.accept, offerOf]
    simp only [SettingSet.create_of_get? hv]

theorem readFields_of_not_accepted {s : SettingSet} {fields : Json.Members}
    (h : ¬ ((Setting.Kind.ofToken? (fields.textAt "type")).isSome ∨
      fields.textAt "key" ∈ s.keys)) :
    readFields true s (fields.textAt "key") fields = s := by
  obtain ⟨htoken, hkey⟩ := not_or.1 h
  have hkind : kind? true (fields.textAt "type")
      ((s.get? (fields.textAt "key")).map Setting.Value.kind) = none := by
    rw [kind?, if_pos rfl, SettingSet.get?_eq_none_iff.2 hkey, Option.map_none, Option.or_none]
    simpa using htoken
  unfold readFields
  simp only [hkind]

theorem foldl_readFields : ∀ (l : List Json.Members) {known : List String} {s : SettingSet},
    (∀ key, key ∈ known ↔ key ∈ s.keys) →
      l.foldl (fun s fields => readFields true s (fields.textAt "key") fields) s =
        ((accepted known l).map offerOf).foldl SettingSet.accept s
  | [], _, _, _ => rfl
  | fields :: l, known, s, h => by
    rw [List.foldl_cons, accepted]
    by_cases hacc : (Setting.Kind.ofToken? (fields.textAt "type")).isSome ∨
        fields.textAt "key" ∈ s.keys
    · rw [if_pos (hacc.imp_right (h _).2), readFields_of_accepted hacc, List.map_cons,
        List.foldl_cons]
      refine foldl_readFields l fun key => ?_
      rw [SettingSet.mem_keys_accept, List.mem_cons, h]
      rfl
    · rw [if_neg (mt (Or.imp_right (h _).1) hacc), readFields_of_not_accepted hacc]
      exact foldl_readFields l h

theorem readSetting_eq (typed : Bool) (s : SettingSet) (node : Json) :
    readSetting typed s node = ((Json.named? "key" node).map fun fields =>
      readFields typed s (fields.textAt "key") fields).getD s := by
  cases node with
  | object fields =>
    have hread : readSetting typed s (.object fields) =
        if Json.Members.textAt fields "key" = "" then s
        else readFields typed s (Json.Members.textAt fields "key") fields := rfl
    rw [hread, Json.named?_object]
    split_ifs <;> rfl
  | _ => rfl

theorem foldl_readSetting_eq (catalog : Catalog) (layer : String) (nodes : List Json) :
    nodes.foldl (readSetting true) (catalog.defaults layer) =
      ((settingsFor catalog layer nodes).map offerOf).foldl SettingSet.accept
        (catalog.defaults layer) := by
  rw [settingsFor, ← foldl_readFields, List.foldl_filterMap]
  · congr 1
    funext s node
    rw [readSetting_eq]
    cases Json.named? "key" node <;> rfl
  · intro key
    rw [catalog.keys_defaults]

/-! ## What is taken up -/

/-- The first setting that counts for a key which is not known states a legible kind. -/
theorem exists_kind_of_find?_accepted {key : String} {fields : Json.Members} :
    ∀ (l : List Json.Members) {known : List String}, key ∉ known →
      (accepted known l).find? (fun fields => fields.textAt "key" == key) = some fields →
        ∃ kind, Setting.Kind.ofToken? (fields.textAt "type") = some kind
  | fields' :: l, known, hkey, h => by
    rw [accepted] at h
    split_ifs at h with hacc
    · by_cases heq : fields'.textAt "key" = key
      · rw [List.find?_cons_of_pos (by simpa using heq)] at h
        obtain rfl := Option.some.inj h
        exact Option.isSome_iff_exists.1 (hacc.resolve_right (heq ▸ hkey))
      · rw [List.find?_cons_of_neg (by simpa using heq)] at h
        refine exists_kind_of_find?_accepted l ?_ h
        rw [List.mem_cons, not_or]
        exact ⟨Ne.symm heq, hkey⟩
    · exact exists_kind_of_find?_accepted l hkey h

/-- A set comes from the settings of an array that count for a layer.  Behind the declared keys
come the others in the order of the first settings that count for them.  A declared key has its
declared kind, and another the kind that the first setting for it states.  The value is that of the
last setting for the key that has a value which spells the kind, or else the declared default, or
an empty value if none is declared. -/
structure MergedFrom (catalog : Catalog) (layer : String) (nodes : List Json) (s : SettingSet) :
    Prop where
  keys : s.keys = catalog.declaredKeys layer ++
    (((settingsFor catalog layer nodes).map fun fields => fields.textAt "key").filter
      fun key => key ∉ catalog.declaredKeys layer).eraseDups
  kind_declared : ∀ {key d v}, (catalog.defaults layer).get? key = some d →
    s.get? key = some v → v.kind = d.kind
  kind_first : ∀ {key v}, key ∉ catalog.declaredKeys layer → s.get? key = some v →
    ∃ fields, (settingsFor catalog layer nodes).find? (fun fields => fields.textAt "key" == key) =
        some fields ∧
      Setting.Kind.ofToken? (fields.textAt "type") = some v.kind
  value : ∀ {key v}, s.get? key = some v →
    v = (((settingsFor catalog layer nodes).filter
        fun fields => fields.textAt "key" == key).reverse.findSome?
      fun fields => (fields.get? "value").bind v.kind.read?).getD
        (((catalog.defaults layer).get? key).getD v.kind.empty)

theorem mergedFrom_foldl_readSetting (catalog : Catalog) (layer : String) (nodes : List Json) :
    MergedFrom catalog layer nodes (nodes.foldl (readSetting true) (catalog.defaults layer)) := by
  have h := SettingSet.takesUp_foldl (catalog.defaults layer)
    ((settingsFor catalog layer nodes).map offerOf)
  rw [← foldl_readSetting_eq] at h
  refine ⟨?_, h.kind_old, fun {key v} hkey hv => ?_, fun {key v} hv => ?_⟩
  · rw [h.keys, catalog.keys_defaults, List.map_map]
    rfl
  · rw [← catalog.keys_defaults] at hkey
    obtain ⟨o, ho, hkind⟩ := h.kind_new (SettingSet.get?_eq_none_iff.2 hkey) hv
    rw [List.find?_map] at ho
    obtain ⟨fields, hfields, rfl⟩ := Option.map_eq_some_iff.1 ho
    rw [catalog.keys_defaults] at hkey
    obtain ⟨kind, htoken⟩ := exists_kind_of_find?_accepted _ hkey hfields
    refine ⟨fields, hfields, ?_⟩
    rw [htoken, hkind, offerOf, htoken, Option.getD_some]
  · have hvalue := h.value hv
    rw [List.filter_map, ← List.map_reverse, List.findSome?_map] at hvalue
    simpa only [Function.comp_def, offerOf, Setting.read?_getD_null] using hvalue

end Wrapped

end Document

/-- In a typed document, the first entry with a name has the settings that come from those of its
array that count. -/
theorem decode_mergedSettings (catalog : Catalog) (policy : LoadPolicy) (path : Path)
    (members body : Json.Members)
    (hg : Generation.ofVersion (Document.version policy (.object members)) = .typed)
    (hbody : Document.Wrapped.body? members = some body) :
    ∃ c, Document.decode catalog policy path (.object members) = .ok c ∧
      ∀ layer fields, Document.Wrapped.first? (body.itemsAt "layers") layer = some fields →
        ∃ e, c.find? layer = some e ∧
          Document.Wrapped.MergedFrom catalog layer (fields.itemsAt "settings") e.settings := by
  have hne : Generation.ofVersion (Document.version policy (.object members)) ≠ .bare := by
    rw [hg]
    decide
  refine ⟨_, Document.decode_of_body? hne hbody path, fun layer fields hfirst => ?_⟩
  have hlayer : fields.textAt "name" = layer := by simpa using List.find?_some hfirst
  refine ⟨Document.Wrapped.readFieldsOfLayer true catalog fields, ?_, ?_⟩
  · rw [decide_eq_true hg]
    refine (find?_ordered (Document.Wrapped.nodup_entries true catalog body) layer).trans ?_
    rw [Document.Wrapped.find?_entries, hfirst, Option.map_some]
  · rw [← hlayer]
    exact Document.Wrapped.mergedFrom_foldl_readSetting catalog _ _

namespace Samples

/-- Settings of a layer: one that is not declared and its second value, which is read as the kind
of the first, a value for a declared one without a legible kind and one that cannot be read, and
a setting that does not count. -/
def mergedLayer : Json.Members :=
  [("name", .string "A"), ("settings", .array [
    .object [("key", .string "extra"), ("type", .string "INT"), ("value", .string "5")],
    .object [("key", .string "limit"), ("type", .string "?"), ("value", .string "20")],
    .object [("key", .string "limit"), ("value", .array [])],
    .object [("key", .string "extra"), ("type", .string "STRING"), ("value", .string " 7")],
    .object [("key", .string "other"), ("value", .string "x")]])]

def mergedBody : Json.Members := [("layers", .array [.object mergedLayer, layerAgain])]

def mergedDocument : Json.Members := [("configuration", .object mergedBody)]

end Samples

open Samples in
theorem decode_mergedSettings_mergedLayer :
    Generation.ofVersion (Document.version typedUnstated (.object mergedDocument)) = .typed ∧
      Document.Wrapped.body? mergedDocument = some mergedBody ∧
      Document.Wrapped.first? (mergedBody.itemsAt "layers") "A" = some mergedLayer ∧
      ∃ c e, Document.decode catalog typedUnstated .empty (.object mergedDocument) = .ok c ∧
        c.find? "A" = some e ∧
        Document.Wrapped.MergedFrom catalog "A" (mergedLayer.itemsAt "settings") e.settings := by
  have hg : Generation.ofVersion (Document.version typedUnstated (.object mergedDocument)) =
      .typed := by decide
  have hfirst : Document.Wrapped.first? (mergedBody.itemsAt "layers") "A" = some mergedLayer := rfl
  obtain ⟨c, hc, h⟩ := decode_mergedSettings catalog typedUnstated .empty mergedDocument
    mergedBody hg rfl
  obtain ⟨e, he, hsettings⟩ := h "A" mergedLayer hfirst
  exact ⟨hg, rfl, hfirst, c, e, hc, he, hsettings⟩

end LayerOverrides
