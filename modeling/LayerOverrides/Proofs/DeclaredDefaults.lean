import LayerOverrides.Proofs.OfferedSettings

/-!
# Settings that a layer declares more than once

Each declared key is in the defaults of a layer once, at the place of its first declaration, but
with the default of its last one (`Layer.get?_defaults`).  So a key has the kind of its first
declaration exactly if the last one is of the same kind, whatever the ones between them are
(`Layer.keepsFirstKinds_iff`).
-/

namespace LayerOverrides

/-- Of all defaults that are put in for a key, the last one stays. -/
theorem SettingSet.get?_foldl_put_default (key : String) :
    ∀ (declared : List Definition) (s : SettingSet),
      (declared.foldl (fun s d => s.put d.key d.default) s).get? key =
        ((declared.reverse.find? fun d => d.key == key).map Definition.default).or (s.get? key)
  | [], s => by simp
  | d :: declared, s => by
    rw [List.foldl_cons, get?_foldl_put_default key declared, get?_put, List.reverse_cons,
      List.find?_append]
    cases declared.reverse.find? fun d => d.key == key with
    | some last => simp
    | none =>
      by_cases h : key = d.key
      · simp [h]
      · simp [h, Ne.symm h]

namespace Layer

/-- The first declaration of a key. -/
def first? (layer : Layer) (key : String) : Option Definition :=
  layer.settings.find? fun d => d.key == key

/-- The last declaration of a key. -/
def last? (layer : Layer) (key : String) : Option Definition :=
  layer.settings.reverse.find? fun d => d.key == key

theorem get?_defaults (layer : Layer) (key : String) :
    layer.defaults.get? key = (layer.last? key).map Definition.default := by
  have hempty : SettingSet.empty.get? key = none := rfl
  rw [defaults, SettingSet.get?_foldl_put_default, hempty, Option.or_none, last?]

theorem exists_last?_of_first? {layer : Layer} {key : String} {d : Definition}
    (h : layer.first? key = some d) : ∃ last, layer.last? key = some last := by
  unfold first? at h
  have hkey := List.find?_some h
  rw [← Option.isSome_iff_exists, last?, List.find?_isSome]
  exact ⟨d, List.mem_reverse.2 (List.mem_of_find?_eq_some h), hkey⟩

/-- Every declared key is there with a value of the kind of its first declaration. -/
def KeepsFirstKinds (layer : Layer) : Prop :=
  ∀ key d, layer.first? key = some d →
    ∃ v, layer.defaults.get? key = some v ∧ v.kind = d.default.kind

/-- The last declaration of each key has the kind of the first. -/
def EndsAsItBegins (layer : Layer) : Prop :=
  ∀ key first last, layer.first? key = some first → layer.last? key = some last →
    last.default.kind = first.default.kind

theorem keepsFirstKinds_iff (layer : Layer) : layer.KeepsFirstKinds ↔ layer.EndsAsItBegins := by
  constructor
  · intro h key first last hfirst hlast
    obtain ⟨v, hv, hkind⟩ := h key first hfirst
    rw [get?_defaults, hlast] at hv
    rw [← hkind, ← Option.some.inj hv]
  · intro h key first hfirst
    obtain ⟨last, hlast⟩ := exists_last?_of_first? hfirst
    refine ⟨last.default, ?_, h key first last hfirst hlast⟩
    rw [get?_defaults, hlast, Option.map_some]

/-- The defaults of a layer: each declared key once, in the order of the first declarations, and
with the default of its last declaration.  Its kind is that of the first one exactly if the last
one has this kind too. -/
theorem defaults_declared (layer : Layer) :
    layer.defaults.keys = (layer.settings.map Definition.key).eraseDups ∧
      layer.defaults.keys.Nodup ∧
      (∀ key, layer.defaults.get? key = (layer.last? key).map Definition.default) ∧
      (layer.KeepsFirstKinds ↔ layer.EndsAsItBegins) :=
  ⟨layer.keys_defaults, layer.defaults.nodup, layer.get?_defaults, layer.keepsFirstKinds_iff⟩

end Layer

namespace Samples

/-- A layer that declares one setting twice, first as an integer. -/
def redeclared : Layer := ⟨"L", [.ofKind "k" .int, ⟨"k", .bool .words true⟩]⟩

end Samples

open Samples in
/-- The second declaration has turned the integer into a truth value. -/
theorem defaults_redeclared : redeclared.first? "k" = some (.ofKind "k" .int) ∧
    redeclared.defaults.get? "k" = some (.bool .words true) ∧ ¬ redeclared.KeepsFirstKinds := by
  have hfirst : redeclared.first? "k" = some (.ofKind "k" .int) := rfl
  have hvalue : redeclared.defaults.get? "k" = some (.bool .words true) := rfl
  refine ⟨hfirst, hvalue, fun h => ?_⟩
  obtain ⟨v, hv, hkind⟩ := h "k" _ hfirst
  obtain rfl := Option.some.inj (hvalue.symm.trans hv)
  cases hkind

end LayerOverrides
