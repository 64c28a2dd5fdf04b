import LayerOverrides.Proofs.KnownKinds

/-!
# The first entry for a layer counts

An entry of a document with a wrapper counts if it is an object with a name, and of two for one
layer the first does.  Each entry that counts is read from its own fields, so the entries of a
configuration are one for each name, in the order in which the names first occur, up to their ranks
(`firstOfEach_entries`).  An entry that does not count may say anything and stand anywhere: the
document is the same configuration without it (`decode_firstOfEach`).
-/

namespace LayerOverrides

/-- Where a layer has one entry, the rank order does not change which is found. -/
theorem find?_ordered {entries : List LayerEntry} (hn : (entries.map LayerEntry.layer).Nodup)
    (layer : String) : (ordered entries).find? (fun e => e.layer == layer) =
      entries.find? fun e => e.layer == layer :=
  Option.ext fun e => by
    rw [find?_key_eq_some_iff (nodup_layer_ordered hn), find?_key_eq_some_iff hn, mem_ordered]

/-! ## Objects with a name -/

/-- The members of an object that has a text other than the empty one at a key. -/
def Json.named? (key : String) : Json → Option Json.Members
  | .object members => if Members.textAt members key = "" then none else some members
  | _ => none

theorem Json.named?_object (key : String) (members : Json.Members) :
    named? key (.object members) = if members.textAt key = "" then none else some members := rfl

theorem Json.named?_eq_some_iff {key : String} {value : Json} {members : Json.Members} :
    named? key value = some members ↔ value = .object members ∧ members.textAt key ≠ "" := by
  cases value with
  | object members' =>
    rw [named?_object]
    split_ifs with h
    · simp only [false_iff, not_and, not_not]
      intro heq
      exact Json.object.inj heq ▸ h
    · simp only [Option.some.injEq, Json.object.injEq, iff_self_and]
      rintro rfl
      exact h
  | _ => simp [named?]

namespace Document

namespace Wrapped

variable {typed : Bool} {catalog : Catalog}

/-! ## Entries that count -/

/-- The names of the entries of an array. -/
def names (nodes : List Json) : List String :=
  (nodes.filterMap (Json.named? "name")).map fun fields => fields.textAt "name"

/-- The fields of the first entry with a name. -/
def first? (nodes : List Json) (name : String) : Option Json.Members :=
  (nodes.filterMap (Json.named? "name")).find? fun fields => fields.textAt "name" == name

theorem readLayer?_eq (node : Json) : readLayer? typed catalog node =
    (Json.named? "name" node).map (readFieldsOfLayer typed catalog) := by
  cases node with
  | object fields =>
    rw [readLayer?_object, Json.named?_object]
    split_ifs <;> rfl
  | _ => rfl

theorem filterMap_readLayer?_eq (nodes : List Json) :
    nodes.filterMap (readLayer? typed catalog) =
      (nodes.filterMap (Json.named? "name")).map (readFieldsOfLayer typed catalog) := by
  rw [List.map_filterMap]
  exact List.filterMap_congr fun node _ => readLayer?_eq node

/-! ## One entry for each name -/

theorem layers_foldl_addNew (l acc : List LayerEntry) :
    (l.foldl addNew acc).map LayerEntry.layer = acc.map LayerEntry.layer ++
      ((l.map LayerEntry.layer).filter fun key => key ∉ acc.map LayerEntry.layer).eraseDups := by
  rw [← foldl_addOnce, List.foldl_map]
  exact (List.foldl_hom (List.map LayerEntry.layer) fun entries e =>
    (layers_addNew entries e).symm).symm

theorem find?_addNew (entries : List LayerEntry) (e : LayerEntry) (layer : String) :
    (addNew entries e).find? (fun e => e.layer == layer) =
      (entries ++ [e]).find? fun e => e.layer == layer := by
  rw [addNew_eq]
  split_ifs with hmem
  · rw [List.find?_append]
    by_cases h : e.layer = layer
    · obtain ⟨e', he', hlayer⟩ := List.mem_map.1 hmem
      have hfound : (entries.find? fun e => e.layer == layer).isSome :=
        List.find?_isSome.2 ⟨e', he', by simpa [h] using hlayer⟩
      rw [Option.or_of_isSome hfound]
    · simp [h]
  · rfl

/-- The first entry for a layer is the one that is found. -/
theorem find?_foldl_addNew (layer : String) : ∀ l acc : List LayerEntry,
    (l.foldl addNew acc).find? (fun e => e.layer == layer) =
      (acc ++ l).find? fun e => e.layer == layer
  | [], acc => by simp
  | e :: l, acc => by
    rw [List.foldl_cons, find?_foldl_addNew layer l, List.find?_append, find?_addNew,
      ← List.find?_append, List.append_assoc, List.singleton_append]

/-- Entries are read one for each name, in the order in which the names first occur, and each from
the fields of the first entry with its name. -/
structure FirstOfEach (typed : Bool) (catalog : Catalog) (nodes : List Json)
    (entries : List LayerEntry) : Prop where
  layers : entries.map LayerEntry.layer = (names nodes).eraseDups
  first : ∀ e ∈ entries, ∃ fields, first? nodes e.layer = some fields ∧
    e = readFieldsOfLayer typed catalog fields

theorem find?_entries (typed : Bool) (catalog : Catalog) (body : Json.Members) (layer : String) :
    (entries typed catalog body).find? (fun e => e.layer == layer) =
      (first? (body.itemsAt "layers") layer).map (readFieldsOfLayer typed catalog) := by
  rw [entries, filterMap_readLayer?_eq, find?_foldl_addNew, List.nil_append, List.find?_map]
  rfl

theorem firstOfEach_entries (typed : Bool) (catalog : Catalog) (body : Json.Members) :
    FirstOfEach typed catalog (body.itemsAt "layers") (entries typed catalog body) where
  layers := by
    rw [entries, filterMap_readLayer?_eq, layers_foldl_addNew, List.map_map, names]
    simp [Function.comp_def, readFieldsOfLayer]
  first e he := by
    have hfind : (entries typed catalog body).find? (fun e' => e'.layer == e.layer) = some e :=
      (find?_key_eq_some_iff (nodup_entries typed catalog body)).2 ⟨he, rfl⟩
    rw [find?_entries] at hfind
    obtain ⟨fields, hfields, rfl⟩ := Option.map_eq_some_iff.1 hfind
    exact ⟨fields, hfields, rfl⟩

/-! ## Entries that do not count -/

/-- An entry adds nothing to those in front of it if it is no object, or has no name, or has the
name of one of them. -/
inductive AddsNothing (before : List Json) : Json → Prop where
  | noObject {node : Json} (h : node.members? = none) : AddsNothing before node
  | nameless {fields : Json.Members} (h : fields.textAt "name" = "") :
    AddsNothing before (.object fields)
  | repeated {fields : Json.Members} (h : fields.textAt "name" ∈ names before) :
    AddsNothing before (.object fields)

theorem AddsNothing.of_named? {before : List Json} {node : Json} (h : AddsNothing before node)
    {fields : Json.Members} (hn : Json.named? "name" node = some fields) :
    fields.textAt "name" ∈ names before := by
  obtain ⟨rfl, hname⟩ := Json.named?_eq_some_iff.1 hn
  cases h with
  | noObject h => cases h
  | nameless h => exact absurd h hname
  | repeated h => exact h

theorem addNew_foldl_of_mem {l : List LayerEntry} {e : LayerEntry}
    (h : e.layer ∈ l.map LayerEntry.layer) :
    addNew (l.foldl addNew []) e = l.foldl addNew [] := by
  rw [addNew_eq, if_pos]
  rw [layers_foldl_addNew]
  simpa using h

theorem foldl_addNew_of_addsNothing {before : List Json} {node : Json}
    (h : AddsNothing before node) (after : List Json) :
    ((before ++ node :: after).filterMap (readLayer? typed catalog)).foldl addNew [] =
      ((before ++ after).filterMap (readLayer? typed catalog)).foldl addNew [] := by
  rw [List.filterMap_append, List.filterMap_append, List.foldl_append, List.foldl_append,
    List.filterMap_cons, readLayer?_eq]
  cases hn : Json.named? "name" node with
  | none => rfl
  | some fields =>
    have hlayer : (readFieldsOfLayer typed catalog fields).layer ∈
        (before.filterMap (readLayer? typed catalog)).map LayerEntry.layer := by
      rw [filterMap_readLayer?_eq, List.map_map]
      exact h.of_named? hn
    rw [Option.map_some, List.foldl_cons, addNew_foldl_of_mem hlayer]

/-- A body with another array of entries. -/
def withLayers (body : Json.Members) (nodes : List Json) : Json.Members :=
  Json.insertMember "layers" (.array nodes) body

theorem configuration_withLayers {body : Json.Members} {before after : List Json} {node : Json}
    (hlayers : body.get? "layers" = some (.array (before ++ after)))
    (h : AddsNothing before node) :
    configuration typed catalog (withLayers body (before ++ node :: after)) =
      configuration typed catalog body := by
  have hget : ∀ key, key ≠ "layers" →
      (withLayers body (before ++ node :: after)).get? key = body.get? key := fun key hkey => by
    rw [withLayers, Json.Members.get?_insertMember, if_neg hkey]
  have hitems : body.itemsAt "layers" = before ++ after := by
    rw [Json.Members.itemsAt, hlayers]
  have hitems' : (withLayers body (before ++ node :: after)).itemsAt "layers" =
      before ++ node :: after := by
    rw [Json.Members.itemsAt, withLayers, Json.Members.get?_insertMember, if_pos rfl]
  have hentries : entries typed catalog (withLayers body (before ++ node :: after)) =
      entries typed catalog body := by
    rw [entries, entries, hitems, hitems', foldl_addNew_of_addsNothing h]
  simp only [configuration, hentries, Json.Members.header, Json.Members.textAt,
    Json.Members.platforms, hget "name" (by decide), hget "description" (by decide),
    hget "platforms" (by decide), hget "editor_state" (by decide)]

end Wrapped

/-- A document with another body in its wrapper. -/
def withBody (members body : Json.Members) : Json.Members :=
  Json.insertMember wrapperField (.object body) members

theorem version_withBody (policy : LoadPolicy) (members body : Json.Members) :
    version policy (.object (withBody members body)) = version policy (.object members) := by
  have hget : (withBody members body).get? versionField = members.get? versionField := by
    rw [withBody, Json.Members.get?_insertMember, if_neg (by decide)]
  have hof : ∀ m : Json.Members, (Json.object m).membersOf = m := fun _ => rfl
  rw [version, version, hof, hof, hget]

theorem body?_withBody (members body : Json.Members) :
    Wrapped.body? (withBody members body) = some body := by
  rw [Wrapped.body?, withBody, Json.Members.get?_insertMember, if_pos rfl]
  rfl

theorem decode_of_body? {catalog : Catalog} {policy : LoadPolicy} {members body : Json.Members}
    (hg : Generation.ofVersion (version policy (.object members)) ≠ .bare)
    (hbody : Wrapped.body? members = some body) (path : Path) :
    decode catalog policy path (.object members) = .ok (Wrapped.configuration
      (Generation.ofVersion (version policy (.object members)) = .typed) catalog body).order :=
  decode_of_some (by rw [configuration?_of_wrapped hg rfl, hbody, Option.map_some])

end Document

/-- A document with a wrapper and a body is read as the rank order of one entry for each name in
its array of layers, which tells nothing but what the first entry with the name and the catalog
say.  An entry that adds nothing can be put in anywhere and changes nothing. -/
theorem decode_firstOfEach (catalog : Catalog) (policy : LoadPolicy) (path : Path)
    (members body : Json.Members)
    (hg : Generation.ofVersion (Document.version policy (.object members)) ≠ .bare)
    (hbody : Document.Wrapped.body? members = some body) :
    (∃ c entries, Document.decode catalog policy path (.object members) = .ok c ∧
      IsRankOrderOf c.entries entries ∧
      Document.Wrapped.FirstOfEach
        (Generation.ofVersion (Document.version policy (.object members)) = .typed) catalog
        (body.itemsAt "layers") entries) ∧
    ∀ before node after, body.get? "layers" = some (.array (before ++ after)) →
      Document.Wrapped.AddsNothing before node →
      Document.decode catalog policy path (.object (Document.withBody members
          (Document.Wrapped.withLayers body (before ++ node :: after)))) =
        Document.decode catalog policy path (.object members) := by
  constructor
  · exact ⟨_, _, Document.decode_of_body? hg hbody path, isRankOrderOf_ordered _,
      Document.Wrapped.firstOfEach_entries _ catalog body⟩
  · intro before node after hlayers hnode
    have hversion := Document.version_withBody policy members
      (Document.Wrapped.withLayers body (before ++ node :: after))
    rw [Document.decode_of_body? hg hbody,
      Document.decode_of_body? (hversion.symm ▸ hg) (Document.body?_withBody _ _), hversion,
      Document.Wrapped.configuration_withLayers hlayers hnode]

namespace Samples

def layerA : Json := .object [("name", .string "A"), ("rank", .string "7")]

def layerB : Json := .object [("name", .string "B"), ("rank", .number (.integer 1 (by decide)
  (by decide)))]

/-- An entry that says other things of the layer that `layerA` is for. -/
def layerAgain : Json :=
  .object [("name", .string "A"), ("rank", .null), ("settings", .string "none"),
    ("state", .string "EXCLUDED")]

def layersBody : Json.Members := [("layers", .array [layerA, layerB]), ("name", .string "N")]

def layersDocument : Json.Members := [("configuration", .object layersBody)]

/-- A policy under which documents that state no version are typed. -/
def typedUnstated : LoadPolicy := ⟨none, .current⟩

end Samples

open Samples in
theorem decode_firstOfEach_layerAgain :
    Generation.ofVersion (Document.version typedUnstated (.object layersDocument)) ≠ .bare ∧
      Document.Wrapped.body? layersDocument = some layersBody ∧
      layersBody.get? "layers" = some (.array ([layerA] ++ [layerB])) ∧
      Document.Wrapped.AddsNothing [layerA] layerAgain ∧
      (∃ c entries, Document.decode catalog typedUnstated .empty (.object layersDocument) = .ok c ∧
        IsRankOrderOf c.entries entries ∧
        Document.Wrapped.FirstOfEach
          (Generation.ofVersion (Document.version typedUnstated (.object layersDocument)) = .typed)
          catalog (layersBody.itemsAt "layers") entries) ∧
      Document.decode catalog typedUnstated .empty (.object (Document.withBody layersDocument
          (Document.Wrapped.withLayers layersBody ([layerA] ++ layerAgain :: [layerB])))) =
        Document.decode catalog typedUnstated .empty (.object layersDocument) := by
  have hg : Generation.ofVersion (Document.version typedUnstated (.object layersDocument)) ≠
      .bare := by decide
  have hagain : Document.Wrapped.AddsNothing [layerA] layerAgain := .repeated (by decide)
  have h := decode_firstOfEach catalog typedUnstated .empty layersDocument layersBody hg rfl
  exact ⟨hg, rfl, rfl, hagain, h.1, h.2 [layerA] layerAgain [layerB] rfl hagain⟩

end LayerOverrides
