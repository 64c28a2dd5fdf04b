import LayerOverrides.Proofs.Reload
import Mathlib

/-!
# Wrapped documents come back as they were read

What a wrapped document is read as has one entry for each of its layers, all of them named, and
the settings of an entry go on from the defaults of its layer with what has a name
(`mem_entries`).  So nothing gets lost when it is written and read again with the same catalog,
but the entries that are left to the application (`decode_encode_of_wrapped`).
-/

namespace LayerOverrides

/-- An entry goes on from a catalog if its settings go on from the defaults of its layer. -/
def LayerEntry.GoesOnFrom (catalog : Catalog) (e : LayerEntry) : Prop :=
  (catalog.defaults e.layer).Extends e.settings

/-- An entry is named if its layer is, and all its settings are that are not just declared. -/
structure LayerEntry.IsNamed (catalog : Catalog) (e : LayerEntry) : Prop where
  layer_ne : e.layer ≠ ""
  nameless : e.settings.get? "" = (catalog.defaults e.layer).get? ""

namespace LayerEntry

theorem overDefaults_of_goesOnFrom {catalog : Catalog} {e : LayerEntry}
    (h : e.GoesOnFrom catalog) : e.overDefaults catalog = e := by
  rw [overDefaults, SettingSet.overlay_of_extends h]

theorem GoesOnFrom.fits {catalog : Catalog} {e : LayerEntry} (h : e.GoesOnFrom catalog)
    (hn : e.IsNamed catalog) : e.Fits catalog where
  layer_ne := hn.layer_ne
  settings s hs := by
    have hget := SettingSet.get?_of_mem hs
    refine ⟨fun v hv => (h.kind hv hget).symm, fun hkey => ?_⟩
    rw [← hn.nameless, ← hkey, hget]

end LayerEntry

namespace Document

/-- Entries in order that are named and go on from the catalog come back as they are. -/
theorem decode_encode_of_named {catalog : Catalog} {c : Configuration} {entries : List LayerEntry}
    (hn : (entries.map LayerEntry.layer).Nodup) (hc : c.entries = ordered entries)
    (hg : ∀ e ∈ entries, e.GoesOnFrom catalog) (hnamed : ∀ e ∈ entries, e.IsNamed catalog)
    (policy : LoadPolicy) (path : Path) :
    decode catalog policy path (encode c) = .ok { c with entries := kept c.entries } := by
  have hsub : (kept c.entries).Sublist (ordered entries) := hc ▸ List.filter_sublist
  have hmem : ∀ e ∈ kept c.entries, e ∈ entries := fun e he => mem_ordered.1 (hsub.subset he)
  have hover : (kept c.entries).map (LayerEntry.overDefaults catalog) = kept c.entries :=
    calc (kept c.entries).map (LayerEntry.overDefaults catalog)
        = (kept c.entries).map id := List.map_congr_left fun e he =>
          LayerEntry.overDefaults_of_goesOnFrom (hg e (hmem e he))
      _ = kept c.entries := List.map_id _
  rw [decode_encode ((nodup_layer_ordered hn).sublist (hsub.map _))
    (fun e he => (hg e (hmem e he)).fits (hnamed e (hmem e he))), ordered_of_sublist hsub, hover]

namespace Wrapped

variable {typed : Bool} {catalog : Catalog} {base s : SettingSet}

theorem extends_readSetting (h : base.Extends s) (node : Json) :
    base.Extends (readSetting typed s node) := by
  unfold readSetting
  split
  · split
    · exact h
    · unfold readFields
      split
      · exact h
      · split
        · exact h.load_create _ _ _
        · exact h.create _ _
  · exact h

theorem get?_readSetting_nameless (s : SettingSet) (node : Json) :
    (readSetting typed s node).get? "" = s.get? "" := by
  unfold readSetting
  split
  · split
    · rfl
    · rename_i hkey
      unfold readFields
      split
      · rfl
      · split
        · exact SettingSet.get?_load_create_of_ne _ _ _ (Ne.symm hkey)
        · exact SettingSet.get?_create_of_ne _ _ (Ne.symm hkey)
  · rfl

theorem foldl_readSetting_extends : ∀ (nodes : List Json) {s : SettingSet}, base.Extends s →
    base.Extends (nodes.foldl (readSetting typed) s)
  | [], _, h => h
  | node :: nodes, _, h => foldl_readSetting_extends nodes (extends_readSetting h node)

theorem get?_foldl_readSetting_nameless : ∀ (nodes : List Json) (s : SettingSet),
    (nodes.foldl (readSetting typed) s).get? "" = s.get? ""
  | [], _ => rfl
  | node :: nodes, s =>
    (get?_foldl_readSetting_nameless nodes _).trans (get?_readSetting_nameless s node)

theorem readLayer?_object (fields : Json.Members) :
    readLayer? typed catalog (.object fields) =
      if fields.textAt "name" = "" then none
      else some (readFieldsOfLayer typed catalog fields) := rfl

theorem readLayer?_spec {node : Json} {e : LayerEntry}
    (h : readLayer? typed catalog node = some e) : e.GoesOnFrom catalog ∧ e.IsNamed catalog := by
  unfold readLayer? at h
  split at h
  · split_ifs at h with hname
    obtain rfl := Option.some.inj h
    exact ⟨foldl_readSetting_extends _ (SettingSet.extends_refl _), hname,
      get?_foldl_readSetting_nameless _ _⟩
  · cases h

theorem addNew_eq (entries : List LayerEntry) (e : LayerEntry) :
    addNew entries e = if e.layer ∈ entries.map LayerEntry.layer then entries
      else entries ++ [e] := by
  unfold addNew
  refine if_congr ?_ rfl rfl
  simp

theorem layers_addNew (entries : List LayerEntry) (e : LayerEntry) :
    (addNew entries e).map LayerEntry.layer =
      if e.layer ∈ entries.map LayerEntry.layer then entries.map LayerEntry.layer
      else entries.map LayerEntry.layer ++ [e.layer] := by
  rw [addNew_eq]
  split_ifs <;> simp

theorem nodup_addNew {entries : List LayerEntry} (h : (entries.map LayerEntry.layer).Nodup)
    (e : LayerEntry) : ((addNew entries e).map LayerEntry.layer).Nodup := by
  rw [layers_addNew]
  exact nodup_addOnce h e.layer

theorem mem_addNew {entries : List LayerEntry} {e e' : LayerEntry} (h : e' ∈ addNew entries e) :
    e' ∈ entries ∨ e' = e := by
  rw [addNew_eq] at h
  split_ifs at h
  · exact .inl h
  · simpa using h

theorem nodup_foldl_addNew : ∀ (l : List LayerEntry) {acc : List LayerEntry},
    (acc.map LayerEntry.layer).Nodup → ((l.foldl addNew acc).map LayerEntry.layer).Nodup
  | [], _, h => h
  | e :: l, _, h => nodup_foldl_addNew l (nodup_addNew h e)

theorem mem_foldl_addNew : ∀ (l : List LayerEntry) {acc : List LayerEntry} {e : LayerEntry},
    e ∈ l.foldl addNew acc → e ∈ acc ∨ e ∈ l
  | [], _, _, h => .inl h
  | e' :: l, acc, e, h => by
    rcases mem_foldl_addNew l h with h | h
    · rcases mem_addNew h with h | rfl
      · exact .inl h
      · exact .inr List.mem_cons_self
    · exact .inr (List.mem_cons_of_mem _ h)

theorem nodup_entries (typed : Bool) (catalog : Catalog) (body : Json.Members) :
    ((entries typed catalog body).map LayerEntry.layer).Nodup :=
  nodup_foldl_addNew _ .nil

theorem mem_entries {body : Json.Members} {e : LayerEntry} (h : e ∈ entries typed catalog body) :
    e.GoesOnFrom catalog ∧ e.IsNamed catalog := by
  rcases mem_foldl_addNew _ h with h | h
  · cases h
  · obtain ⟨node, -, hread⟩ := List.mem_filterMap.1 h
    exact readLayer?_spec hread

end Wrapped

/-- What a document with a wrapper is read as. -/
theorem exists_wrapped_of_decode {catalog : Catalog} {policy : LoadPolicy} {path : Path}
    {root : Json} {c : Configuration} (hg : Generation.ofVersion (version policy root) ≠ .bare)
    (h : decode catalog policy path root = .ok c) :
    ∃ typed body, c = (Wrapped.configuration typed catalog body).order := by
  obtain ⟨d, hd, rfl⟩ := decode_eq_ok.1 h
  cases root with
  | object members =>
    rw [configuration?_of_wrapped hg rfl] at hd
    obtain ⟨body, -, rfl⟩ := Option.map_eq_some_iff.1 hd
    exact ⟨_, body, rfl⟩
  | _ => cases hd

end Document

/-- A configuration from a document with a wrapper comes back when it is written and read again
with the same catalog, whatever the policy and path, less the entries left to the application. -/
theorem decode_encode_of_wrapped (catalog : Catalog) (policy : LoadPolicy) (path : Path)
    (root : Json) (c : Configuration)
    (hg : Generation.ofVersion (Document.version policy root) ≠ .bare)
    (h : Document.decode catalog policy path root = .ok c) (policy' : LoadPolicy) (path' : Path) :
    Document.decode catalog policy' path' (Document.encode c) =
      .ok { c with entries := c.entries.filter fun e => e.state ≠ .applicationControlled } := by
  obtain ⟨typed, body, rfl⟩ := Document.exists_wrapped_of_decode hg h
  exact Document.decode_encode_of_named (Document.Wrapped.nodup_entries typed catalog body) rfl
    (fun e he => (Document.Wrapped.mem_entries he).1)
    (fun e he => (Document.Wrapped.mem_entries he).2) policy' path'

namespace Samples

/-- A document without kinds, with a value for a declared setting and one for another, a second
entry for a layer and an entry that is left to the application. -/
def wrapped : Json :=
  .object [("configuration", .object [
      ("layers", .array [
        .object [("name", .string "A"), ("rank", .string "7"),
          ("settings", .array [
            .object [("key", .string "limit"), ("value", .string "20")],
            .object [("key", .string "extra"), ("value", .bool true)]]),
          ("state", .string "OVERRIDDEN")],
        .object [("name", .string "A"), ("state", .string "EXCLUDED")],
        .object [("name", .string "B"), ("state", .string "?")]]),
      ("name", .string "N")]),
    ("file_format_version", .string "2.1.0")]

def wrappedRead : Configuration :=
  { Configuration.named "N" with
    entries := [⟨"A", .overridden, some 7, .all,
        ⟨[⟨"limit", .int 20⟩, ⟨"mode", .text .choice "fast"⟩, ⟨"extra", .text .plain "true"⟩],
          by decide⟩⟩,
      ⟨"B", .applicationControlled, none, .all, .empty⟩] }

end Samples

theorem decode_encode_wrappedRead :
    Generation.ofVersion (Document.version .default Samples.wrapped) ≠ .bare ∧
      Document.decode Samples.catalog .default .empty Samples.wrapped =
        .ok Samples.wrappedRead ∧
      Document.decode Samples.catalog (LoadPolicy.default.namesFromDocuments) (.ofString "x")
          (Document.encode Samples.wrappedRead) =
        .ok { Samples.wrappedRead with
          entries := Samples.wrappedRead.entries.filter fun e =>
            e.state ≠ .applicationControlled } :=
  have hg : Generation.ofVersion (Document.version .default Samples.wrapped) ≠ .bare := by decide
  have h : Document.decode Samples.catalog .default .empty Samples.wrapped =
      .ok Samples.wrappedRead := by cbv
  ⟨hg, h, decode_encode_of_wrapped _ _ _ _ _ hg h _ _⟩

end LayerOverrides
