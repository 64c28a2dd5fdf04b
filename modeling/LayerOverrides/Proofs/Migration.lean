import LayerOverrides.Proofs.SortedJson
import LayerOverrides.Proofs.WrappedReload

/-!
# Bare documents in the current format

Bare documents take any member for a layer or a setting, whatever its key, while documents with a
wrapper pass over what has an empty name.  That is the only difference: a configuration from a bare
document comes back when it is written and read again if and only if the document has no layer
without a name, and no setting without a name but where it says nothing new
(`decode_encode_of_bare_iff`).
-/

namespace LayerOverrides

theorem Json.Members.get?_cons (key key' : String) (value : Json) (members : Json.Members) :
    Json.Members.get? ((key', value) :: members) key =
      if key = key' then some value else members.get? key := by
  rw [Json.Members.get?, List.lookup_cons]
  by_cases h : key = key'
  · rw [if_pos h, beq_iff_eq.2 h]
  · rw [if_neg h, beq_false_of_ne h]
    rfl

theorem Json.Members.get?_eq_none_iff {key : String} : ∀ {members : Json.Members},
    members.get? key = none ↔ key ∉ members.map Prod.fst
  | [] => by simp [Json.Members.get?]
  | (key', value) :: members => by
    rw [get?_cons, List.map_cons, List.mem_cons, not_or, ← get?_eq_none_iff]
    split_ifs with h <;> simp [h]

theorem Json.Members.mem_of_get? {key : String} {value : Json} : ∀ {members : Json.Members},
    members.get? key = some value → (key, value) ∈ members
  | (key', value') :: members, h => by
    rw [get?_cons] at h
    split_ifs at h with hkey
    · obtain rfl := Option.some.inj h
      exact hkey ▸ List.mem_cons_self
    · exact List.mem_cons_of_mem _ (mem_of_get? h)

theorem Json.sortedMembers_membersOf {value : Json} (h : value.sorted = true) :
    sortedMembers value.membersOf = true := by
  cases value with
  | object members => exact h
  | _ => rfl

theorem Json.Members.sortedMembers_membersAt {members : Json.Members}
    (h : sortedMembers members = true) (key : String) :
    sortedMembers (members.membersAt key) = true := by
  unfold membersAt
  split
  · rename_i value hget
    exact sortedMembers_membersOf (sorted_of_mem h (mem_of_get? hget))
  · rfl

/-- The layer of an entry and its settings. -/
def LayerEntry.contents (e : LayerEntry) : String × SettingSet := (e.layer, e.settings)

theorem LayerEntry.goesOnFrom_congr {catalog : Catalog} {e e' : LayerEntry}
    (h : e.contents = e'.contents) : e.GoesOnFrom catalog ↔ e'.GoesOnFrom catalog := by
  obtain ⟨hlayer, hsettings⟩ := Prod.mk.inj h
  rw [GoesOnFrom, GoesOnFrom, hlayer, hsettings]

namespace Document

namespace Bare

variable {catalog : Catalog}

/-! ## Settings -/

theorem readSetting_cases (s : SettingSet) (key : String) (node : Json) :
    readSetting s key node = s ∨
      ∃ kind value, readSetting s key node = (s.create key kind).load key value := by
  unfold readSetting
  split_ifs
  · exact .inl rfl
  · split
    · split
      · exact .inr ⟨_, _, rfl⟩
      · exact .inl rfl
    · exact .inl rfl

theorem extends_readSetting {base s : SettingSet} (h : base.Extends s) (key : String)
    (node : Json) : base.Extends (readSetting s key node) := by
  rcases readSetting_cases s key node with heq | ⟨kind, value, heq⟩ <;> rw [heq]
  · exact h
  · exact h.load_create key kind value

theorem get?_readSetting_of_ne (s : SettingSet) {key key' : String} (node : Json)
    (h : key' ≠ key) : (readSetting s key node).get? key' = s.get? key' := by
  rcases readSetting_cases s key node with heq | ⟨kind, value, heq⟩ <;> rw [heq]
  exact SettingSet.get?_load_create_of_ne _ _ _ h

/-- What a member is read as depends only on the value that its key has. -/
theorem get?_readSetting_congr {s s' : SettingSet} {key : String} (h : s.get? key = s'.get? key)
    (node : Json) : (readSetting s key node).get? key = (readSetting s' key node).get? key := by
  unfold readSetting
  split_ifs
  · exact h
  · split
    · split
      · rw [SettingSet.load_create, SettingSet.load_create, SettingSet.get?_put_self,
          SettingSet.get?_put_self, h]
      · exact h
    · exact h

theorem readSetting_eq_self_iff {s : SettingSet} {key : String} {node : Json} :
    readSetting s key node = s ↔ (readSetting s key node).get? key = s.get? key := by
  refine ⟨fun h => by rw [h], fun h => ?_⟩
  rcases readSetting_cases s key node with heq | ⟨kind, value, heq⟩
  · exact heq
  · rw [heq, SettingSet.load_create] at h ⊢
    rw [SettingSet.get?_put_self] at h
    exact SettingSet.put_of_get? h.symm

theorem foldl_readSetting_extends {base : SettingSet} : ∀ (members : Json.Members)
    {s : SettingSet}, base.Extends s →
      base.Extends (members.foldl (fun s m => readSetting s m.1 m.2) s)
  | [], _, h => h
  | m :: members, _, h => foldl_readSetting_extends members (extends_readSetting h m.1 m.2)

theorem get?_foldl_readSetting_of_not_mem {key : String} : ∀ (members : Json.Members)
    (s : SettingSet), key ∉ members.map Prod.fst →
      (members.foldl (fun s m => readSetting s m.1 m.2) s).get? key = s.get? key
  | [], _, _ => rfl
  | m :: members, s, h => by
    rw [List.map_cons, List.mem_cons, not_or] at h
    rw [List.foldl_cons, get?_foldl_readSetting_of_not_mem members _ h.2,
      get?_readSetting_of_ne s m.2 h.1]

/-- A member is read as if it were the only one. -/
theorem get?_foldl_readSetting {key : String} {node : Json} : ∀ {members : Json.Members},
    (members.map Prod.fst).Nodup → members.get? key = some node → ∀ s : SettingSet,
      (members.foldl (fun s m => readSetting s m.1 m.2) s).get? key =
        (readSetting s key node).get? key
  | (key', node') :: members, hn, hget, s => by
    obtain ⟨hkey', hn⟩ := List.nodup_cons.1 hn
    rw [Json.Members.get?_cons] at hget
    split_ifs at hget with hkey
    · subst hkey
      obtain rfl := Option.some.inj hget
      rw [List.foldl_cons, get?_foldl_readSetting_of_not_mem members _ hkey']
    · rw [List.foldl_cons, get?_foldl_readSetting hn hget]
      exact get?_readSetting_congr (get?_readSetting_of_ne s node' hkey) node

/-! ## Entries -/

theorem goesOnFrom_readLayer (layer : String) (options : Json) :
    (readLayer catalog layer options).GoesOnFrom catalog :=
  foldl_readSetting_extends _ (SettingSet.extends_refl _)

theorem nameless_readLayer_iff (layer : String) {options : Json} (hs : options.sorted = true) :
    (readLayer catalog layer options).settings.get? "" = (catalog.defaults layer).get? "" ↔
      ∀ node ∈ options.membersOf.get? "",
        readSetting (catalog.defaults layer) "" node = catalog.defaults layer := by
  have hn := Json.nodup_of_sortedMembers (Json.sortedMembers_membersOf hs)
  cases hget : options.membersOf.get? "" with
  | none =>
    have hmem : "" ∉ options.membersOf.map Prod.fst := Json.Members.get?_eq_none_iff.1 hget
    simp [readLayer, get?_foldl_readSetting_of_not_mem _ _ hmem]
  | some node =>
    simp [readLayer, get?_foldl_readSetting hn hget, readSetting_eq_self_iff]

theorem contents_exclude (layer : String) : ∀ entries : List LayerEntry,
    (exclude catalog layer entries).map LayerEntry.contents =
      if layer ∈ entries.map LayerEntry.layer then entries.map LayerEntry.contents
      else entries.map LayerEntry.contents ++ [(layer, catalog.defaults layer)]
  | [] => rfl
  | e :: entries => by
    unfold exclude
    by_cases h : e.layer = layer
    · subst h
      simp [LayerEntry.contents]
    · have hmem : layer ∈ (e :: entries).map LayerEntry.layer ↔
          layer ∈ entries.map LayerEntry.layer := by simp [Ne.symm h]
      rw [if_neg h, List.map_cons, contents_exclude layer entries, if_congr hmem rfl rfl]
      split_ifs <;> rfl

theorem layers_exclude (layer : String) (entries : List LayerEntry) :
    (exclude catalog layer entries).map LayerEntry.layer =
      if layer ∈ entries.map LayerEntry.layer then entries.map LayerEntry.layer
      else entries.map LayerEntry.layer ++ [layer] := by
  have hfst : ∀ l : List LayerEntry, l.map LayerEntry.layer =
      (l.map LayerEntry.contents).map Prod.fst := fun l => by rw [List.map_map]; rfl
  rw [hfst, contents_exclude]
  split_ifs <;> simp [LayerEntry.contents]

theorem state_exclude {layer : String} {e : LayerEntry} : ∀ {entries : List LayerEntry},
    e ∈ exclude catalog layer entries → e ∈ entries ∨ e.state = .excluded
  | [], h => by
    obtain rfl := List.mem_singleton.1 h
    exact .inr rfl
  | e' :: entries, h => by
    unfold exclude at h
    split_ifs at h
    · rcases List.mem_cons.1 h with rfl | h
      · exact .inr rfl
      · exact .inl (List.mem_cons_of_mem _ h)
    · rcases List.mem_cons.1 h with rfl | h
      · exact .inl List.mem_cons_self
      · exact (state_exclude h).imp_left (List.mem_cons_of_mem _)

theorem nodup_foldl_exclude : ∀ (layers : List String) {entries : List LayerEntry},
    (entries.map LayerEntry.layer).Nodup →
      ((layers.foldl (fun entries layer => exclude catalog layer entries) entries).map
        LayerEntry.layer).Nodup
  | [], _, h => h
  | layer :: layers, entries, h => by
    refine nodup_foldl_exclude layers ?_
    rw [layers_exclude]
    exact nodup_addOnce h layer

theorem state_foldl_exclude {e : LayerEntry} : ∀ (layers : List String)
    {entries : List LayerEntry},
      e ∈ layers.foldl (fun entries layer => exclude catalog layer entries) entries →
        e ∈ entries ∨ e.state = .excluded
  | [], _, h => .inl h
  | _ :: layers, _, h => (state_foldl_exclude layers h).elim state_exclude .inr

/-- Excluding layers adds the defaults of those that have no entry, and nothing else. -/
theorem mem_contents_foldl_exclude {x : String × SettingSet} : ∀ (layers : List String)
    {entries : List LayerEntry},
      x ∈ (layers.foldl (fun entries layer => exclude catalog layer entries) entries).map
          LayerEntry.contents ↔
        x ∈ entries.map LayerEntry.contents ∨
          x.1 ∈ layers ∧ x.1 ∉ entries.map LayerEntry.layer ∧ x.2 = catalog.defaults x.1
  | [], _ => by simp
  | layer :: layers, entries => by
    rw [List.foldl_cons, mem_contents_foldl_exclude layers, contents_exclude, layers_exclude]
    by_cases hmem : layer ∈ entries.map LayerEntry.layer
    · rw [if_pos hmem, if_pos hmem, List.mem_cons]
      refine or_congr_right (and_congr_left fun h => ?_)
      have hne : x.1 ≠ layer := fun heq => h.1 (heq ▸ hmem)
      exact (or_iff_right hne).symm
    · rw [if_neg hmem, if_neg hmem, List.mem_append, List.mem_append, List.mem_singleton,
        List.mem_singleton, List.mem_cons, or_assoc]
      refine or_congr_right ?_
      constructor
      · rintro (rfl | ⟨hl, hn, hd⟩)
        · exact ⟨.inl rfl, hmem, rfl⟩
        · exact ⟨.inr hl, fun h => hn (.inl h), hd⟩
      · rintro ⟨hl, hn, hd⟩
        by_cases hx : x.1 = layer
        · exact .inl (Prod.ext hx (hx ▸ hd))
        · exact .inr ⟨hl.resolve_left hx, fun h => h.elim hn hx, hd⟩

theorem layers_readLayer (options : Json.Members) :
    (options.map fun m => readLayer catalog m.1 m.2).map LayerEntry.layer =
      options.map Prod.fst := by
  rw [List.map_map]
  rfl

theorem nodup_entries {body : Json.Members}
    (hs : Json.sortedMembers (body.membersAt "layer_options") = true) :
    ((entries catalog body).map LayerEntry.layer).Nodup := by
  refine nodup_foldl_exclude _ ?_
  rw [layers_readLayer]
  exact Json.nodup_of_sortedMembers hs

/-- A bare document forces layers on or off and leaves none to the application. -/
theorem state_of_mem_entries {body : Json.Members} {e : LayerEntry}
    (h : e ∈ entries catalog body) : e.state ≠ .applicationControlled := by
  rcases state_foldl_exclude _ h with h | h
  · obtain ⟨m, -, rfl⟩ := List.mem_map.1 h
    simp [readLayer, LayerEntry.seeded]
  · simp [h]

/-- The contents of the entries are those of the options, and the defaults of the other layers that
are excluded. -/
theorem mem_contents_entries {body : Json.Members} {x : String × SettingSet} :
    x ∈ (entries catalog body).map LayerEntry.contents ↔
      (∃ m ∈ body.membersAt "layer_options", (readLayer catalog m.1 m.2).contents = x) ∨
        Json.string x.1 ∈ body.itemsAt "blacklisted_layers" ∧
          x.1 ∉ (body.membersAt "layer_options").map Prod.fst ∧ x.2 = catalog.defaults x.1 := by
  have hstring : x.1 ∈ (body.itemsAt "blacklisted_layers").filterMap Json.string? ↔
      Json.string x.1 ∈ body.itemsAt "blacklisted_layers" := by
    rw [List.mem_filterMap]
    refine ⟨fun ⟨node, hmem, hnode⟩ => ?_, fun hmem => ⟨_, hmem, rfl⟩⟩
    cases node <;> cases hnode
    exact hmem
  rw [entries, mem_contents_foldl_exclude, layers_readLayer, hstring, List.map_map, List.mem_map]
  rfl

theorem goesOnFrom_of_mem_entries {body : Json.Members} {e : LayerEntry}
    (h : e ∈ entries catalog body) : e.GoesOnFrom catalog := by
  rcases mem_contents_entries.1 (List.mem_map_of_mem h) with ⟨m, -, hm⟩ | ⟨-, -, hd⟩
  · exact (LayerEntry.goesOnFrom_congr hm).1 (goesOnFrom_readLayer m.1 m.2)
  · have hsettings : e.settings = catalog.defaults e.layer := hd
    rw [LayerEntry.GoesOnFrom, hsettings]
    exact SettingSet.extends_refl _

/-- A document names what it says: no layer has the empty name, and an option that has it says
nothing but the default. -/
structure IsNamed (catalog : Catalog) (body : Json.Members) : Prop where
  layer_ne : ∀ m ∈ body.membersAt "layer_options", m.1 ≠ ""
  excluded_ne : Json.string "" ∉ body.itemsAt "blacklisted_layers"
  option_eq : ∀ m ∈ body.membersAt "layer_options", ∀ node ∈ m.2.membersOf.get? "",
    readSetting (catalog.defaults m.1) "" node = catalog.defaults m.1

theorem forall_isNamed_iff {body : Json.Members} (hs : Json.sortedMembers body = true) :
    (∀ e ∈ entries catalog body, e.IsNamed catalog) ↔ IsNamed catalog body := by
  have hoptions := body.sortedMembers_membersAt hs "layer_options"
  have hnameless : ∀ m ∈ body.membersAt "layer_options",
      ((readLayer catalog m.1 m.2).settings.get? "" = (catalog.defaults m.1).get? "" ↔
        ∀ node ∈ m.2.membersOf.get? "",
          readSetting (catalog.defaults m.1) "" node = catalog.defaults m.1) :=
    fun m hm => nameless_readLayer_iff m.1 (Json.sorted_of_mem hoptions hm)
  constructor
  · intro h
    have hmem : ∀ x ∈ (entries catalog body).map LayerEntry.contents,
        x.1 ≠ "" ∧ x.2.get? "" = (catalog.defaults x.1).get? "" := by
      intro x hx
      obtain ⟨e, he, rfl⟩ := List.mem_map.1 hx
      exact ⟨(h e he).layer_ne, (h e he).nameless⟩
    have hlayer : ∀ m ∈ body.membersAt "layer_options", m.1 ≠ "" := fun m hm =>
      (hmem _ (mem_contents_entries.2 (.inl ⟨m, hm, rfl⟩))).1
    refine ⟨hlayer, fun hex => ?_, fun m hm => ?_⟩
    · have hn : "" ∉ (body.membersAt "layer_options").map Prod.fst := by
        intro hmap
        obtain ⟨m, hm, heq⟩ := List.mem_map.1 hmap
        exact hlayer m hm heq
      exact (hmem ("", catalog.defaults "") (mem_contents_entries.2 (.inr ⟨hex, hn, rfl⟩))).1 rfl
    · exact (hnameless m hm).1 (hmem _ (mem_contents_entries.2 (.inl ⟨m, hm, rfl⟩))).2
  · intro h e he
    rcases mem_contents_entries.1 (List.mem_map_of_mem he) with ⟨m, hm, hc⟩ | ⟨hex, -, hd⟩
    · obtain ⟨hlayer, hsettings⟩ := Prod.mk.inj hc
      refine ⟨hlayer ▸ h.layer_ne m hm, ?_⟩
      rw [← hlayer, ← hsettings]
      exact (hnameless m hm).2 (h.option_eq m hm)
    · refine ⟨fun heq => h.excluded_ne ?_, congrArg (SettingSet.get? · "") hd⟩
      rw [← heq]
      exact hex

end Bare

/-- What a document without a wrapper is read as. -/
theorem exists_bare_of_decode {catalog : Catalog} {policy : LoadPolicy} {path : Path}
    {root : Json} {c : Configuration} (hg : Generation.ofVersion (version policy root) = .bare)
    (h : decode catalog policy path root = .ok c) :
    ∃ body, Bare.body? root.membersOf = some body ∧
      c = (Bare.configuration catalog policy (version policy root) path body).order := by
  obtain ⟨d, hd, rfl⟩ := decode_eq_ok.1 h
  cases root with
  | object members =>
    rw [configuration?_of_bare hg] at hd
    obtain ⟨body, hbody, rfl⟩ := Option.map_eq_some_iff.1 hd
    exact ⟨body, hbody, rfl⟩
  | _ => cases hd

theorem sortedMembers_of_body? {root : Json} (hs : root.sorted = true) {body : Json.Members}
    (h : Bare.body? root.membersOf = some body) : Json.sortedMembers body = true := by
  obtain ⟨m, hm, hbody⟩ := List.exists_of_findSome?_eq_some h
  have hsorted := Json.sorted_of_mem (Json.sortedMembers_membersOf hs) (List.mem_of_mem_filter hm)
  cases hvalue : m.2 <;> rw [hvalue] at hbody hsorted <;> cases hbody
  exact hsorted

end Document

/-- A configuration from a bare document comes back when it is written and read again with the
same catalog if and only if the document names what it says. -/
theorem decode_encode_of_bare_iff (catalog : Catalog) (policy : LoadPolicy) (path : Path)
    (root : Json) (hs : root.sorted = true) (c : Configuration)
    (hg : Generation.ofVersion (Document.version policy root) = .bare)
    (h : Document.decode catalog policy path root = .ok c) (policy' : LoadPolicy) (path' : Path) :
    Document.decode catalog policy' path' (Document.encode c) = .ok c ↔
      ∃ body, Document.Bare.body? root.membersOf = some body ∧
        Document.Bare.IsNamed catalog body := by
  obtain ⟨body, hbody, hc⟩ := Document.exists_bare_of_decode hg h
  have hentries : c.entries = ordered (Document.Bare.entries catalog body) :=
    congrArg Configuration.entries hc
  have hsorted := Document.sortedMembers_of_body? hs hbody
  constructor
  · intro hback
    have hne : Generation.ofVersion (Document.version policy' (Document.encode c)) ≠ .bare := by
      rw [Document.generation_encode]
      decide
    obtain ⟨typed, body', hc'⟩ := Document.exists_wrapped_of_decode hne hback
    -- what comes back is what some document with a wrapper is read as
    have hentries' : c.entries = ordered (Document.Wrapped.entries typed catalog body') :=
      congrArg Configuration.entries hc'
    refine ⟨body, hbody, (Document.Bare.forall_isNamed_iff hsorted).1 fun e he => ?_⟩
    have hmem : e ∈ c.entries := hentries ▸ mem_ordered.2 he
    rw [hentries'] at hmem
    exact (Document.Wrapped.mem_entries (mem_ordered.1 hmem)).2
  · rintro ⟨body', hbody', hnamed⟩
    obtain rfl := Option.some.inj (hbody.symm.trans hbody')
    have hkept : Document.kept c.entries = c.entries := by
      refine List.filter_eq_self.2 fun e he => ?_
      rw [hentries] at he
      simpa using Document.Bare.state_of_mem_entries (mem_ordered.1 he)
    have hoptions := body.sortedMembers_membersAt hsorted "layer_options"
    rw [Document.decode_encode_of_named (Document.Bare.nodup_entries hoptions) hentries
      (fun e he => Document.Bare.goesOnFrom_of_mem_entries he)
      ((Document.Bare.forall_isNamed_iff hsorted).2 hnamed), hkept]

namespace Samples

/-- A document with an option without a name, which says nothing, and a layer that has options and
is excluded. -/
def bare : Json :=
  .object [("c", .object [
      ("blacklisted_layers", .array [.string "B", .string "A"]),
      ("layer_options", .object [
        ("A", .object [("", .null), ("layer_rank", .string "2")])]),
      ("name", .string "N")]),
    ("file_format_version", .string "2.0.2")]

def bareRead : Configuration :=
  { Configuration.named "N" with
    entries := [⟨"A", .excluded, some 2, .all,
        ⟨[⟨"limit", .int 10⟩, ⟨"mode", .text .choice "fast"⟩], by decide⟩⟩,
      ⟨"B", .excluded, none, .all, .empty⟩] }

/-- A document with a layer that has no name. -/
def nameless : Json :=
  .object [("c", .object [
      ("layer_options", .object [("", .object [("layer_rank", .string "1")])]),
      ("name", .string "N")]),
    ("file_format_version", .string "2.0.2")]

def namelessRead : Configuration :=
  { Configuration.named "N" with entries := [⟨"", .overridden, some 1, .all, .empty⟩] }

end Samples

theorem decode_encode_bareRead_iff :
    Samples.bare.sorted = true ∧
      Generation.ofVersion (Document.version .default Samples.bare) = .bare ∧
      Document.decode Samples.catalog .default .empty Samples.bare = .ok Samples.bareRead ∧
      (Document.decode Samples.catalog LoadPolicy.default.namesFromDocuments (.ofString "x")
          (Document.encode Samples.bareRead) = .ok Samples.bareRead ↔
        ∃ body, Document.Bare.body? Samples.bare.membersOf = some body ∧
          Document.Bare.IsNamed Samples.catalog body) :=
  have hs : Samples.bare.sorted = true := by decide
  have hg : Generation.ofVersion (Document.version .default Samples.bare) = .bare := by decide
  have h : Document.decode Samples.catalog .default .empty Samples.bare =
      .ok Samples.bareRead := by cbv
  ⟨hs, hg, h, decode_encode_of_bare_iff _ _ _ _ hs _ hg h _ _⟩

/-- A layer without a name is read from a bare document, and lost when it is written and read
again. -/
theorem decode_encode_namelessRead_ne :
    Samples.nameless.sorted = true ∧
      Generation.ofVersion (Document.version .default Samples.nameless) = .bare ∧
      Document.decode [] .default .empty Samples.nameless = .ok Samples.namelessRead ∧
      Document.decode [] .default .empty (Document.encode Samples.namelessRead) ≠
        .ok Samples.namelessRead := by
  refine ⟨by decide, by decide, by cbv, fun h => ?_⟩
  have hlost : Document.decode [] .default .empty (Document.encode Samples.namelessRead) =
      .ok { Samples.namelessRead with entries := [] } := by cbv
  rw [hlost] at h
  have hentries : [] = Samples.namelessRead.entries :=
    congrArg Configuration.entries (Except.ok.inj h)
  exact absurd hentries (by decide)

end LayerOverrides
