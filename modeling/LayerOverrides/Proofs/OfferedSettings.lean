import LayerOverrides.Proofs.SettingSets
import Mathlib.Tactic.SplitIfs

/-!
# Settings that are offered one after another

A document offers settings to a set that holds the declared ones already.  A key comes in with its
first offer and has from then on the kind of that offer; a declared key has its kind before any.
Whatever kind a later offer states, its node is read as the kind that the key has, and leaves the
value as it is if it does not spell that kind.  So the set that results has the keys of the lower
set and behind them the others in the order of their first offers, and each has the value of the
last offer that spells its kind (`takesUp_foldl`).
-/

namespace LayerOverrides

/-- What comes in behind a list, each element once, are the first occurrences of what is new. -/
theorem foldl_addOnce {α : Type} [DecidableEq α] : ∀ l acc : List α,
    l.foldl (fun acc a => if a ∈ acc then acc else acc ++ [a]) acc =
      acc ++ (l.filter fun a => a ∉ acc).eraseDups
  | [], acc => by simp
  | a :: l, acc => by
    rw [List.foldl_cons, foldl_addOnce l]
    split_ifs with ha
    · rw [List.filter_cons_of_neg (by simpa using ha)]
    · have hrest : (l.filter fun b => b ∉ acc ++ [a]) =
          (l.filter fun b => b ∉ acc).filter fun b => !b == a := by
        rw [List.filter_filter]
        exact List.filter_congr fun b _ => by rw [Bool.eq_iff_iff]; simp [and_comm]
      rw [List.filter_cons_of_pos (by simpa using ha), List.eraseDups_cons, List.append_assoc,
        List.singleton_append, hrest]

/-! ## Declared keys -/

/-- The keys that a catalog declares for a layer, in the order of their first declarations. -/
def Catalog.declaredKeys (catalog : Catalog) (layer : String) : List String :=
  match catalog.find? layer with
  | some l => (l.settings.map Definition.key).eraseDups
  | none => []

theorem Layer.keys_defaults (layer : Layer) :
    layer.defaults.keys = (layer.settings.map Definition.key).eraseDups := by
  have hkeys : layer.defaults.keys = layer.settings.foldl
      (fun keys d => if d.key ∈ keys then keys else keys ++ [d.key]) SettingSet.empty.keys :=
    (List.foldl_hom SettingSet.keys fun s d => (SettingSet.keys_put s d.key d.default).symm).symm
  have hadd := foldl_addOnce (layer.settings.map Definition.key) SettingSet.empty.keys
  rw [List.foldl_map] at hadd
  rw [hkeys, hadd]
  simp [SettingSet.empty, SettingSet.keys]

theorem Catalog.keys_defaults (catalog : Catalog) (layer : String) :
    (catalog.defaults layer).keys = catalog.declaredKeys layer := by
  unfold Catalog.defaults Catalog.declaredKeys
  cases catalog.find? layer with
  | none => rfl
  | some l => exact l.keys_defaults

/-! ## Offers -/

/-- A setting that a document offers: its key, the kind for the key if that is new, and the node
of its value. -/
structure Setting.Offer where
  key : String
  kind : Setting.Kind
  node : Json

theorem Setting.read?_null (kind : Setting.Kind) : kind.read? .null = none := by
  cases kind <;> rfl

theorem Setting.read?_getD_null (kind : Setting.Kind) (node : Option Json) :
    kind.read? (node.getD .null) = node.bind kind.read? := by
  cases node with
  | none => exact read?_null kind
  | some node => rfl

theorem Setting.load_null (v : Setting.Value) : v.load .null = v := by
  rw [Value.load, read?_null, Option.getD_none]

namespace SettingSet

theorem load_null (s : SettingSet) (key : String) : s.load key .null = s := by
  cases h : s.get? key with
  | none => rw [load, h]
  | some v => rw [load_of_get? h, Setting.load_null, put_of_get? h]

/-- Takes up an offer.  A key that is there keeps its kind. -/
def accept (s : SettingSet) (o : Setting.Offer) : SettingSet :=
  (s.create o.key o.kind).load o.key o.node

theorem keys_accept (s : SettingSet) (o : Setting.Offer) :
    (s.accept o).keys = if o.key ∈ s.keys then s.keys else s.keys ++ [o.key] := by
  rw [accept, load_create, keys_put]

theorem mem_keys_accept {s : SettingSet} {o : Setting.Offer} {key : String} :
    key ∈ (s.accept o).keys ↔ key = o.key ∨ key ∈ s.keys := by
  rw [keys_accept]
  split_ifs with h
  · exact ⟨.inr, fun hkey => hkey.elim (fun heq => heq ▸ h) id⟩
  · rw [List.mem_append, List.mem_singleton, or_comm]

theorem get?_accept (s : SettingSet) (o : Setting.Offer) (key : String) :
    (s.accept o).get? key = if key = o.key then
      some (((s.get? key).getD o.kind.empty).load o.node) else s.get? key := by
  rw [accept, load_create, get?_put]
  split_ifs with h
  · rw [h]
  · rfl

theorem keys_foldl_accept (offers : List Setting.Offer) (s : SettingSet) :
    (offers.foldl accept s).keys =
      s.keys ++ ((offers.map Setting.Offer.key).filter fun key => key ∉ s.keys).eraseDups := by
  rw [← foldl_addOnce, List.foldl_map]
  exact (List.foldl_hom keys fun s o => (keys_accept s o).symm).symm

/-- What becomes of a value when offers come for its key: the last that spells its kind counts. -/
def latest (v : Setting.Value) (offers : List Setting.Offer) : Setting.Value :=
  (offers.reverse.findSome? fun o => v.kind.read? o.node).getD v

theorem latest_cons (v : Setting.Value) (o : Setting.Offer) (offers : List Setting.Offer) :
    latest v (o :: offers) = latest (v.load o.node) offers := by
  rw [latest, latest, Setting.kind_load, List.reverse_cons, List.findSome?_append, Option.getD_or]
  simp [Setting.Value.load]

theorem kind_latest (v : Setting.Value) : ∀ offers : List Setting.Offer,
    (latest v offers).kind = v.kind
  | [] => rfl
  | o :: offers => by rw [latest_cons, kind_latest _ offers, Setting.kind_load]

/-- The value that a key begins with: the one that is there, or an empty one of the kind that is
offered first. -/
def initial? (s : SettingSet) (offers : List Setting.Offer) (key : String) :
    Option Setting.Value :=
  (s.get? key).or ((offers.find? fun o => o.key == key).map fun o => o.kind.empty)

theorem get?_foldl_accept (key : String) : ∀ (offers : List Setting.Offer) (s : SettingSet),
    (offers.foldl accept s).get? key =
      (s.initial? offers key).map (latest · (offers.filter fun o => o.key == key))
  | [], s => by
    simp [initial?, latest]
  | o :: offers, s => by
    rw [List.foldl_cons, get?_foldl_accept key offers, initial?, initial?, get?_accept]
    by_cases h : key = o.key
    · subst h
      cases hs : s.get? o.key <;> simp [latest_cons]
    · have hne : (o.key == key) = false := by simpa using Ne.symm h
      rw [if_neg h]
      simp only [List.find?_cons, List.filter_cons, hne, Bool.false_eq_true, if_false]

/-- A set takes up offers: behind the keys of the lower set come the new keys in the order of their
first offers; each key has the kind that it has in the lower set, or that of its first offer; and
its value is that of the last offer that spells this kind, or else the one in the lower set, or an
empty one. -/
structure TakesUp (base : SettingSet) (offers : List Setting.Offer) (s : SettingSet) : Prop where
  keys : s.keys =
    base.keys ++ ((offers.map Setting.Offer.key).filter fun key => key ∉ base.keys).eraseDups
  kind_old : ∀ {key d v}, base.get? key = some d → s.get? key = some v → v.kind = d.kind
  kind_new : ∀ {key v}, base.get? key = none → s.get? key = some v →
    ∃ o, offers.find? (fun o => o.key == key) = some o ∧ v.kind = o.kind
  value : ∀ {key v}, s.get? key = some v →
    v = (((offers.filter fun o => o.key == key).reverse).findSome?
      fun o => v.kind.read? o.node).getD ((base.get? key).getD v.kind.empty)

theorem takesUp_foldl (base : SettingSet) (offers : List Setting.Offer) :
    base.TakesUp offers (offers.foldl accept base) where
  keys := keys_foldl_accept offers base
  kind_old {key d v} hd hv := by
    rw [get?_foldl_accept, initial?, hd] at hv
    obtain rfl := Option.some.inj hv
    exact kind_latest d _
  kind_new {key v} hnone hv := by
    rw [get?_foldl_accept, initial?, hnone, Option.none_or, Option.map_map] at hv
    obtain ⟨o, ho, rfl⟩ := Option.map_eq_some_iff.1 hv
    exact ⟨o, ho, (kind_latest _ _).trans (Setting.kind_empty o.kind)⟩
  value {key v} hv := by
    rw [get?_foldl_accept, initial?] at hv
    obtain ⟨w, hw, rfl⟩ := Option.map_eq_some_iff.1 hv
    have hbase : (base.get? key).getD w.kind.empty = w := by
      rcases Option.or_eq_some_iff.1 hw with h | ⟨h, ho⟩
      · rw [h, Option.getD_some]
      · obtain ⟨o, -, rfl⟩ := Option.map_eq_some_iff.1 ho
        rw [h, Option.getD_none, Setting.kind_empty]
    rw [kind_latest, hbase]
    rfl

end SettingSet

end LayerOverrides
