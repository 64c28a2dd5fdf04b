import LayerOverrides.Setting.Set
/-!
# Catalogs of known layers

A catalog lists layers and the settings that each declares, with their defaults. Of two layers with
one key only the first counts, and of two declarations of one setting the last gives the default.
-/

namespace LayerOverrides

/-- A setting that a layer declares. -/
structure Definition where
  key : String
  default : Setting.Value
  deriving DecidableEq

/-- A declaration whose default is the empty value. -/
def Definition.ofKind (key : String) (kind : Setting.Kind) : Definition := ⟨key, kind.empty⟩

structure Layer where
  key : String
  settings : List Definition
  deriving DecidableEq

/-- The declared defaults, in the order of the first declarations. -/
def Layer.defaults (layer : Layer) : SettingSet :=
  layer.settings.foldl (fun s d => s.put d.key d.default) .empty

abbrev Catalog := List Layer

namespace Catalog

def find? (catalog : Catalog) (key : String) : Option Layer :=
  List.find? (fun layer => layer.key == key) catalog

/-- The defaults of a layer; an unknown one has none. -/
def defaults (catalog : Catalog) (key : String) : SettingSet :=
  match catalog.find? key with
  | some layer => layer.defaults
  | none => .empty

end Catalog

end LayerOverrides
