import LayerOverrides.Proofs.DeclaredVersions

/-!
# What the catalog tells of a document

The catalog seeds the settings of an entry and so tells the kinds that they are read as; what a
setting is skipped for then differs from catalog to catalog.  Nothing else of an entry is read by
way of its settings, and whether an entry is kept, merged or moved depends on its layer and rank
only.  So two readings of a document with different catalogs go side by side, entry by entry, and
differ in the settings of layers that the catalogs differ in (`decode_catalogs`).
-/

namespace LayerOverrides

/-- Two entries are the same but for their settings, and also in these if the first layer of that
key is the same in both catalogs, or there is none. -/
structure LayerEntry.SameButSettings (A B : Catalog) (e f : LayerEntry) : Prop where
  layer : f.layer = e.layer
  state : f.state = e.state
  rank : f.rank = e.rank
  platforms : f.platforms = e.platforms
  settings : A.find? e.layer = B.find? e.layer → f.settings = e.settings

/-- Two configurations are the same but for the settings in their entries. -/
structure Configuration.SameButSettings (A B : Catalog) (c d : Configuration) : Prop where
  name : d.name = c.name
  description : d.description = c.description
  editorState : d.editorState = c.editorState
  platforms : d.platforms = c.platforms
  entries : List.Forall₂ (LayerEntry.SameButSettings A B) c.entries d.entries

section Sorting

variable {α β : Type} {le : α → α → Bool} {le' : β → β → Bool} {R : α → β → Prop}

theorem insertBy_forall₂ (hR : ∀ a a' b b', R a a' → R b b' → le' a' b' = le a b) {a : α} {a' : β}
    (ha : R a a') {l : List α} {l' : List β} (h : List.Forall₂ R l l') :
    List.Forall₂ R (insertBy le a l) (insertBy le' a' l') := by
  induction h with
  | nil => exact .cons ha .nil
  | cons hb hl ih =>
    rw [insertBy, insertBy, hR _ _ _ _ ha hb]
    split
    · exact .cons ha (.cons hb hl)
    · exact .cons hb ih

/-- Lists that are sorted by what their elements agree in are sorted side by side. -/
theorem sortBy_forall₂ (hR : ∀ a a' b b', R a a' → R b b' → le' a' b' = le a b) {l : List α}
    {l' : List β} (h : List.Forall₂ R l l') : List.Forall₂ R (sortBy le l) (sortBy le' l') := by
  induction h with
  | nil => exact .nil
  | cons ha _ ih => exact insertBy_forall₂ hR ha ih

end Sorting

variable {A B : Catalog}

theorem Catalog.defaults_congr {layer : String} (h : A.find? layer = B.find? layer) :
    B.defaults layer = A.defaults layer := by
  rw [defaults, defaults, h]

namespace LayerEntry.SameButSettings

variable {e f e' f' : LayerEntry} {l l' : List LayerEntry}

theorem mayPrecede (h : e.SameButSettings A B f) (h' : e'.SameButSettings A B f') :
    f.mayPrecede f' = e.mayPrecede e' := by
  rw [LayerEntry.mayPrecede, LayerEntry.mayPrecede, h.rank, h'.rank]

theorem ordered (h : List.Forall₂ (SameButSettings A B) l l') :
    List.Forall₂ (SameButSettings A B) (ordered l) (ordered l') :=
  sortBy_forall₂ (fun _ _ _ _ ha hb => ha.mayPrecede hb) h

theorem map_layer (h : List.Forall₂ (SameButSettings A B) l l') :
    l'.map LayerEntry.layer = l.map LayerEntry.layer := by
  induction h with
  | nil => rfl
  | cons ha _ ih => rw [List.map_cons, List.map_cons, ha.layer, ih]

theorem seeded (layer : String) (state : LayerState) :
    (LayerEntry.seeded A layer state).SameButSettings A B (LayerEntry.seeded B layer state) :=
  ⟨rfl, rfl, rfl, rfl, Catalog.defaults_congr⟩

end LayerEntry.SameButSettings

open LayerEntry (SameButSettings)

namespace Document

/-! ## Bare documents -/

namespace Bare

theorem readLayer_catalogs (layer : String) (options : Json) :
    (readLayer A layer options).SameButSettings A B (readLayer B layer options) where
  layer := rfl
  state := rfl
  rank := rfl
  platforms := rfl
  settings h := by
    have hdefaults : B.defaults layer = A.defaults layer := Catalog.defaults_congr h
    rw [readLayer, readLayer, hdefaults]

theorem exclude_catalogs (layer : String) {l l' : List LayerEntry}
    (h : List.Forall₂ (SameButSettings A B) l l') :
    List.Forall₂ (SameButSettings A B) (exclude A layer l) (exclude B layer l') := by
  induction h with
  | nil => exact .cons (.seeded layer .excluded) .nil
  | cons ha hl ih =>
    rw [exclude, exclude, ha.layer]
    split
    · exact .cons ⟨rfl, rfl, ha.rank, ha.platforms, ha.settings⟩ hl
    · exact .cons ha ih

theorem foldl_exclude_catalogs : ∀ (layers : List String) {l l' : List LayerEntry},
    List.Forall₂ (SameButSettings A B) l l' →
      List.Forall₂ (SameButSettings A B)
        (layers.foldl (fun entries layer => exclude A layer entries) l)
        (layers.foldl (fun entries layer => exclude B layer entries) l')
  | [], _, _, h => h
  | layer :: layers, _, _, h => foldl_exclude_catalogs layers (exclude_catalogs layer h)

theorem entries_catalogs (A B : Catalog) (body : Json.Members) :
    List.Forall₂ (SameButSettings A B) (entries A body) (entries B body) := by
  refine foldl_exclude_catalogs _ ?_
  rw [List.forall₂_map_left_iff, List.forall₂_map_right_iff, List.forall₂_same]
  exact fun m _ => readLayer_catalogs m.1 m.2

end Bare

/-! ## Documents with a wrapper -/

namespace Wrapped

variable {typed : Bool}

theorem readFieldsOfLayer_catalogs (fields : Json.Members) :
    (readFieldsOfLayer typed A fields).SameButSettings A B
      (readFieldsOfLayer typed B fields) where
  layer := rfl
  state := rfl
  rank := rfl
  platforms := rfl
  settings h := by
    have hdefaults : B.defaults (fields.textAt "name") = A.defaults (fields.textAt "name") :=
      Catalog.defaults_congr h
    rw [readFieldsOfLayer, readFieldsOfLayer, hdefaults]

/-- Which entries of a document are read does not depend on the catalog. -/
theorem filterMap_readLayer?_catalogs : ∀ nodes : List Json,
    List.Forall₂ (SameButSettings A B) (nodes.filterMap (readLayer? typed A))
      (nodes.filterMap (readLayer? typed B))
  | [] => .nil
  | node :: nodes => by
    have ih := filterMap_readLayer?_catalogs nodes
    rw [List.filterMap_cons, List.filterMap_cons]
    cases node with
    | object fields =>
      rw [readLayer?_object, readLayer?_object]
      split_ifs
      · exact ih
      · exact .cons (readFieldsOfLayer_catalogs fields) ih
    | _ => exact ih

theorem addNew_catalogs {l l' : List LayerEntry} (h : List.Forall₂ (SameButSettings A B) l l')
    {e f : LayerEntry} (he : e.SameButSettings A B f) :
    List.Forall₂ (SameButSettings A B) (addNew l e) (addNew l' f) := by
  rw [addNew_eq, addNew_eq, SameButSettings.map_layer h, he.layer]
  split_ifs
  · exact h
  · exact List.rel_append h (.cons he .nil)

theorem foldl_addNew_catalogs {entries entries' : List LayerEntry}
    (h : List.Forall₂ (SameButSettings A B) entries entries') : ∀ {l l' : List LayerEntry},
      List.Forall₂ (SameButSettings A B) l l' →
        List.Forall₂ (SameButSettings A B) (entries.foldl addNew l) (entries'.foldl addNew l') := by
  induction h with
  | nil => exact fun hl => hl
  | cons he _ ih => exact fun hl => ih (addNew_catalogs hl he)

theorem entries_catalogs (typed : Bool) (A B : Catalog) (body : Json.Members) :
    List.Forall₂ (SameButSettings A B) (entries typed A body) (entries typed B body) :=
  foldl_addNew_catalogs (filterMap_readLayer?_catalogs _) .nil

end Wrapped

/-- Two readings with different catalogs both find a configuration or both find none. -/
theorem configuration?_catalogs (A B : Catalog) (policy : LoadPolicy) (path : Path) (root : Json) :
    Option.Rel (Configuration.SameButSettings A B) (configuration? A policy path root)
      (configuration? B policy path root) := by
  unfold configuration?
  split
  · exact .none
  · rename_i members _
    split
    · cases Bare.body? members with
      | none => exact .none
      | some body => exact .some ⟨rfl, rfl, rfl, rfl, Bare.entries_catalogs A B body⟩
    · cases Wrapped.body? members with
      | none => exact .none
      | some body => exact .some ⟨rfl, rfl, rfl, rfl, Wrapped.entries_catalogs false A B body⟩
    · cases Wrapped.body? members with
      | none => exact .none
      | some body => exact .some ⟨rfl, rfl, rfl, rfl, Wrapped.entries_catalogs true A B body⟩

end Document

theorem Configuration.SameButSettings.order {c d : Configuration}
    (h : c.SameButSettings A B d) : c.order.SameButSettings A B d.order :=
  ⟨h.name, h.description, h.editorState, h.platforms,
    LayerEntry.SameButSettings.ordered h.entries⟩

/-- Two readings of a document with different catalogs both refuse it or give configurations that
are the same, position by position, but for the settings of layers that the catalogs differ in. -/
theorem decode_catalogs (A B : Catalog) (policy : LoadPolicy) (path : Path) (root : Json) :
    (Document.decode A policy path root = .error (.notAConfiguration path) ∧
      Document.decode B policy path root = .error (.notAConfiguration path)) ∨
    ∃ c d, Document.decode A policy path root = .ok c ∧
      Document.decode B policy path root = .ok d ∧ c.SameButSettings A B d := by
  have h := Document.configuration?_catalogs A B policy path root
  cases hA : Document.configuration? A policy path root with
  | none =>
    rw [hA] at h
    cases hB : Document.configuration? B policy path root with
    | none => exact .inl ⟨Document.decode_of_none hA, Document.decode_of_none hB⟩
    | some d =>
      rw [hB] at h
      cases h
  | some c =>
    rw [hA] at h
    cases hB : Document.configuration? B policy path root with
    | none =>
      rw [hB] at h
      cases h
    | some d =>
      rw [hB] at h
      cases h with
      | some h => exact .inr ⟨_, _, Document.decode_of_some hA, Document.decode_of_some hB, h.order⟩

end LayerOverrides
