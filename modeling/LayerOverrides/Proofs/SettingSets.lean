import LayerOverrides.Catalog
import Mathlib.Data.List.Nodup

/-!
# Setting sets by their look-up

A set is its keys, in order, and the value that it gives for each (`ext_get?`).  So each operation
is told by what it does to the keys and to `get?`, and no later proof looks at the list.

One set over another (`overlay`) has the keys of the lower one first, and for each key the value of
the upper one where it has one.  It is what putting the settings of the upper set into the lower
one comes to (`foldl_put`), and a set that goes on from the lower one is over it already
(`overlay_of_extends`).
-/

namespace LayerOverrides

/-! ## Look-up -/

/-- In a list whose elements have different keys, a key finds the element that has it. -/
theorem find?_key_eq_some_iff {α β : Type} [DecidableEq β] {key : α → β} {l : List α}
    (hn : (l.map key).Nodup) {a : α} {b : β} :
    l.find? (fun x => key x == b) = some a ↔ a ∈ l ∧ key a = b := by
  constructor
  · intro h
    exact ⟨List.mem_of_find?_eq_some h, by simpa using List.find?_some h⟩
  · rintro ⟨ha, rfl⟩
    cases h : l.find? fun x => key x == key a with
    | none => exact absurd (List.find?_eq_none.1 h a ha) (by simp)
    | some a' =>
      have hkey : key a' = key a := by simpa using List.find?_some h
      rw [List.inj_on_of_nodup_map hn (List.mem_of_find?_eq_some h) ha hkey]

namespace SettingSet

theorem get?_eq_some_iff {s : SettingSet} {key : String} {v : Setting.Value} :
    s.get? key = some v ↔ ⟨key, v⟩ ∈ s.settings := by
  rw [get?, Option.map_eq_some_iff]
  constructor
  · rintro ⟨e, he, rfl⟩
    obtain ⟨hmem, rfl⟩ := (find?_key_eq_some_iff s.nodup).1 he
    exact hmem
  · exact fun h => ⟨_, (find?_key_eq_some_iff s.nodup).2 ⟨h, rfl⟩, rfl⟩

theorem get?_eq_none_iff {s : SettingSet} {key : String} : s.get? key = none ↔ key ∉ s.keys := by
  simp [get?, keys, List.find?_eq_none]

theorem isSome_get? {s : SettingSet} {key : String} : (s.get? key).isSome ↔ key ∈ s.keys := by
  rw [Option.isSome_iff_ne_none, ne_eq, get?_eq_none_iff, not_not]

theorem get?_of_mem {s : SettingSet} {e : Setting} (h : e ∈ s.settings) :
    s.get? e.key = some e.value := get?_eq_some_iff.2 h

theorem settings_eq_filterMap (s : SettingSet) :
    s.settings = s.keys.filterMap fun key => (s.get? key).map (Setting.mk key) := by
  rw [keys, List.filterMap_map]
  calc s.settings = s.settings.filterMap some := List.filterMap_some.symm
    _ = _ := List.filterMap_congr fun e he => by simp [get?_of_mem he]

theorem ext_get? {s t : SettingSet} (hk : s.keys = t.keys) (hg : ∀ key, s.get? key = t.get? key) :
    s = t := by
  have h : s.settings = t.settings := by
    rw [settings_eq_filterMap s, settings_eq_filterMap t, hk]
    simp only [hg]
  rcases s with ⟨l, hl⟩
  rcases t with ⟨l', hl'⟩
  subst h
  rfl

theorem contains_eq (s : SettingSet) (key : String) : s.contains key = (s.get? key).isSome := by
  rw [Bool.eq_iff_iff, contains_eq_true_iff, isSome_get?]

/-! ## Operations -/

theorem find?_putIn (key key' : String) (value : Setting.Value) : ∀ settings : List Setting,
    ((Setting.putIn key value settings).find? fun e => e.key == key').map Setting.value =
      if key' = key then some value
      else (settings.find? fun e => e.key == key').map Setting.value
  | [] => by by_cases h : key' = key <;> simp [Setting.putIn, h, Ne.symm]
  | e :: settings => by
    have ih := find?_putIn key key' value settings
    unfold Setting.putIn
    by_cases hk : e.key = key
    · by_cases h : key' = key
      · simp [hk, h]
      · simp [hk, h, Ne.symm h]
    · rw [if_neg hk]
      by_cases he : e.key = key'
      · have h : key' ≠ key := fun h => hk (he.trans h)
        simp [he, h]
      · rw [List.find?_cons_of_neg (by simpa using he), List.find?_cons_of_neg (by simpa using he),
          ih]

theorem get?_put (s : SettingSet) (key key' : String) (value : Setting.Value) :
    (s.put key value).get? key' = if key' = key then some value else s.get? key' :=
  find?_putIn key key' value s.settings

theorem get?_put_self (s : SettingSet) (key : String) (value : Setting.Value) :
    (s.put key value).get? key = some value := by rw [get?_put, if_pos rfl]

theorem get?_put_of_ne (s : SettingSet) {key key' : String} (value : Setting.Value)
    (h : key' ≠ key) : (s.put key value).get? key' = s.get? key' := by rw [get?_put, if_neg h]

/-- Putting in the value that is there changes nothing. -/
theorem put_of_get? {s : SettingSet} {key : String} {value : Setting.Value}
    (h : s.get? key = some value) : s.put key value = s := by
  refine ext_get? ?_ fun key' => ?_
  · rw [keys_put, if_pos (isSome_get?.1 (by rw [h]; rfl))]
  · rw [get?_put]
    split
    · rename_i hk
      rw [hk, h]
    · rfl

theorem put_put (s : SettingSet) (key : String) (v w : Setting.Value) :
    (s.put key v).put key w = s.put key w := by
  refine ext_get? ?_ fun key' => ?_
  · simp only [keys_put]
    split <;> simp_all
  · simp only [get?_put]
    split <;> rfl

theorem create_of_get? {s : SettingSet} {key : String} {v : Setting.Value}
    (h : s.get? key = some v) (kind : Setting.Kind) : s.create key kind = s := by
  rw [create, contains_eq, h]
  rfl

theorem create_of_get?_none {s : SettingSet} {key : String} (h : s.get? key = none)
    (kind : Setting.Kind) : s.create key kind = s.put key kind.empty := by
  rw [create, contains_eq, h]
  rfl

theorem load_of_get? {s : SettingSet} {key : String} {v : Setting.Value}
    (h : s.get? key = some v) (node : Json) : s.load key node = s.put key (v.load node) := by
  rw [load, h]

/-- After a key has been created, a node is read as the kind that the key has had, or has now. -/
theorem load_create (s : SettingSet) (key : String) (kind : Setting.Kind) (node : Json) :
    (s.create key kind).load key node = s.put key (((s.get? key).getD kind.empty).load node) := by
  cases h : s.get? key with
  | some v => rw [create_of_get? h, load_of_get? h, Option.getD_some]
  | none => rw [create_of_get?_none h, load_of_get? (get?_put_self ..), put_put, Option.getD_none]

theorem get?_create_of_ne (s : SettingSet) {key key' : String} (kind : Setting.Kind)
    (h : key' ≠ key) : (s.create key kind).get? key' = s.get? key' := by
  cases hs : s.get? key with
  | some v => rw [create_of_get? hs]
  | none => rw [create_of_get?_none hs, get?_put_of_ne _ _ h]

theorem get?_load_create_of_ne (s : SettingSet) {key key' : String} (kind : Setting.Kind)
    (node : Json) (h : key' ≠ key) :
    ((s.create key kind).load key node).get? key' = s.get? key' := by
  rw [load_create, get?_put_of_ne _ _ h]

/-! ## One set over another -/

/-- The keys of the lower set and behind them the other keys of the upper one; each key has the
value of the upper set, if there is one. -/
def overlay (base top : SettingSet) : SettingSet where
  settings := base.settings.map (fun e => ⟨e.key, (top.get? e.key).getD e.value⟩) ++
    top.settings.filter fun e => e.key ∉ base.keys
  nodup := by
    rw [List.map_append, List.map_map]
    refine List.nodup_append.2 ⟨base.nodup, top.nodup.sublist (List.filter_sublist.map _), ?_⟩
    rintro key hb _ ht rfl
    obtain ⟨e, he, rfl⟩ := List.mem_map.1 ht
    have hn : e.key ∉ base.keys := by simpa using (List.mem_filter.1 he).2
    exact hn hb

theorem keys_overlay (base top : SettingSet) :
    (base.overlay top).keys = base.keys ++ top.keys.filter fun key => key ∉ base.keys := by
  simp only [keys, overlay, List.map_append, List.map_map, List.filter_map]
  rfl

theorem get?_overlay (base top : SettingSet) (key : String) :
    (base.overlay top).get? key = (top.get? key).or (base.get? key) := by
  ext v
  rw [get?_eq_some_iff, Option.or_eq_some_iff, overlay, List.mem_append, List.mem_map,
    List.mem_filter]
  constructor
  · rintro (⟨e, he, hv⟩ | ⟨ht, -⟩)
    · obtain ⟨rfl, rfl⟩ := Setting.mk.inj hv
      cases h : top.get? e.key with
      | some w => exact .inl rfl
      | none => exact .inr ⟨rfl, get?_of_mem he⟩
    · exact .inl (get?_eq_some_iff.2 ht)
  · rintro (ht | ⟨ht, hb⟩)
    · cases h : base.get? key with
      | some w => exact .inl ⟨⟨key, w⟩, get?_eq_some_iff.1 h, by simp [ht]⟩
      | none => exact .inr ⟨get?_eq_some_iff.1 ht, by simpa using get?_eq_none_iff.1 h⟩
    · exact .inl ⟨⟨key, v⟩, get?_eq_some_iff.1 hb, by simp [ht]⟩

theorem keys_foldl_put : ∀ (l : List Setting) (s : SettingSet), (l.map Setting.key).Nodup →
    (l.foldl (fun s e => s.put e.key e.value) s).keys =
      s.keys ++ (l.map Setting.key).filter fun key => key ∉ s.keys
  | [], s, _ => by simp
  | e :: l, s, h => by
    obtain ⟨he, hl⟩ := List.nodup_cons.1 h
    rw [List.foldl_cons, keys_foldl_put l _ hl, keys_put, List.map_cons]
    by_cases hk : e.key ∈ s.keys
    · rw [if_pos hk, List.filter_cons_of_neg (by simpa using hk)]
    · rw [if_neg hk, List.filter_cons_of_pos (by simpa using hk), List.append_assoc,
        List.singleton_append]
      -- no later setting has this key, so one more key to leave out leaves out nothing more
      refine congrArg (fun l => s.keys ++ e.key :: l) (List.filter_congr fun key hkey => ?_)
      have hne : key ≠ e.key := by rintro rfl; exact he hkey
      simp [hne]

theorem get?_foldl_put (key : String) : ∀ (l : List Setting) (s : SettingSet),
    (l.map Setting.key).Nodup →
      (l.foldl (fun s e => s.put e.key e.value) s).get? key =
        ((l.find? fun e => e.key == key).map Setting.value).or (s.get? key)
  | [], s, _ => by simp
  | e :: l, s, h => by
    obtain ⟨he, hl⟩ := List.nodup_cons.1 h
    rw [List.foldl_cons, get?_foldl_put key l _ hl, get?_put]
    by_cases hk : key = e.key
    · subst hk
      have hnone : l.find? (fun e' => e'.key == e.key) = none :=
        List.find?_eq_none.2 fun e' he' h' => he (List.mem_map.2 ⟨e', he', by simpa using h'⟩)
      simp [hnone]
    · rw [if_neg hk, List.find?_cons_of_neg (by simpa using Ne.symm hk)]

theorem foldl_put (base top : SettingSet) :
    top.settings.foldl (fun s e => s.put e.key e.value) base = base.overlay top :=
  ext_get? ((keys_foldl_put _ _ top.nodup).trans (keys_overlay base top).symm) fun key =>
    (get?_foldl_put key _ _ top.nodup).trans (get?_overlay base top key).symm

/-- A set goes on from another if it has the keys of the other in front, with values of the same
kinds. -/
structure Extends (base s : SettingSet) : Prop where
  keys : base.keys <+: s.keys
  kind : ∀ {key v w}, base.get? key = some v → s.get? key = some w → w.kind = v.kind

theorem extends_refl (s : SettingSet) : s.Extends s where
  keys := List.prefix_rfl
  kind hv hw := by rw [Option.some.inj (hv.symm.trans hw)]

theorem Extends.put {base s : SettingSet} (h : base.Extends s) {key : String}
    {value : Setting.Value} (hk : ∀ v, base.get? key = some v → value.kind = v.kind) :
    base.Extends (s.put key value) where
  keys := by
    rw [keys_put]
    split
    · exact h.keys
    · exact h.keys.trans (List.prefix_append _ _)
  kind {key' v w} hv hw := by
    rw [get?_put] at hw
    split at hw
    · rename_i heq
      subst heq
      rw [← Option.some.inj hw]
      exact hk v hv
    · exact h.kind hv hw

theorem Extends.exists_get? {base s : SettingSet} (h : base.Extends s) {key : String}
    {v : Setting.Value} (hv : base.get? key = some v) :
    ∃ w, s.get? key = some w ∧ w.kind = v.kind := by
  have hk : key ∈ base.keys := isSome_get?.1 (by rw [hv]; rfl)
  obtain ⟨w, hw⟩ := Option.isSome_iff_exists.1 (isSome_get?.2 (h.keys.subset hk))
  exact ⟨w, hw, h.kind hv hw⟩

theorem overlay_of_extends {base s : SettingSet} (h : base.Extends s) : base.overlay s = s := by
  obtain ⟨rest, hrest⟩ := h.keys
  have hn : (base.keys ++ rest).Nodup := hrest ▸ s.nodup
  have hdisjoint := (List.nodup_append.1 hn).2.2
  refine ext_get? ?_ fun key => ?_
  · rw [keys_overlay, ← hrest, List.filter_append,
      List.filter_eq_nil_iff.2 (by simp), List.nil_append, List.filter_eq_self.2]
    intro key hkey
    simpa using fun hb => hdisjoint key hb key hkey rfl
  · rw [get?_overlay]
    cases hs : s.get? key with
    | some v => rfl
    | none =>
      have hb : key ∉ base.keys := fun hb =>
        get?_eq_none_iff.1 hs (hrest ▸ List.mem_append_left _ hb)
      rw [Option.none_or, get?_eq_none_iff.2 hb]

/-- Reading a node into a created key keeps the kind of every key that the lower set has. -/
theorem Extends.load_create {base s : SettingSet} (h : base.Extends s) (key : String)
    (kind : Setting.Kind) (node : Json) : base.Extends ((s.create key kind).load key node) := by
  rw [SettingSet.load_create]
  refine h.put fun v hv => ?_
  obtain ⟨w, hw, hkind⟩ := h.exists_get? hv
  rw [Setting.kind_load, hw, Option.getD_some, hkind]

theorem Extends.create {base s : SettingSet} (h : base.Extends s) (key : String)
    (kind : Setting.Kind) : base.Extends (s.create key kind) := by
  cases hs : s.get? key with
  | some v => rwa [create_of_get? hs]
  | none =>
    rw [create_of_get?_none hs]
    refine h.put fun v hv => ?_
    obtain ⟨w, hw, -⟩ := h.exists_get? hv
    rw [hs] at hw
    cases hw

end SettingSet

end LayerOverrides
