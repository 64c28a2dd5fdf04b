import LayerOverrides.Document.Generation
import LayerOverrides.Path
/-!
# Bare documents

The first member that is an object, the version field aside, is the configuration. Its layers are
the members of `layer_options`, each an object of settings and a rank; the layers that
`blacklisted_layers` names are excluded, with their options if they have any.
-/

namespace LayerOverrides.Document.Bare

/-- The member of a layer's options that is no setting. -/
def rankField : String := "layer_rank"

def body? (root : Json.Members) : Option Json.Members :=
  (root.filter fun m => m.1 ≠ versionField).findSome? fun m => m.2.members?

/-- Reads one member of a layer's options into its settings. -/
def readSetting (settings : SettingSet) (key : String) (node : Json) : SettingSet :=
  if key = rankField then settings
  else match node with
    | .object fields => match Setting.Kind.ofToken? (Json.Members.textAt fields "type") with
      | some kind =>
        (settings.create key kind).load key ((Json.Members.get? fields "default").getD .null)
      | none => settings
    | _ => settings

def readLayer (catalog : Catalog) (layer : String) (options : Json) : LayerEntry :=
  { LayerEntry.seeded catalog layer .overridden with
    rank := options.membersOf.rankAt rankField
    settings := options.membersOf.foldl (fun s m => readSetting s m.1 m.2)
      (catalog.defaults layer) }

/-- Excludes a layer, which gets an entry if it has none. -/
def exclude (catalog : Catalog) (layer : String) : List LayerEntry → List LayerEntry
  | [] => [LayerEntry.seeded catalog layer .excluded]
  | e :: entries =>
    if e.layer = layer then { e with state := .excluded } :: entries
    else e :: exclude catalog layer entries

def entries (catalog : Catalog) (body : Json.Members) : List LayerEntry :=
  ((body.itemsAt "blacklisted_layers").filterMap Json.string?).foldl
    (fun entries layer => exclude catalog layer entries)
    ((body.membersAt "layer_options").map fun m => readLayer catalog m.1 m.2)

def name (policy : LoadPolicy) (version : Version) (path : Path) (body : Json.Members) : String :=
  if policy.isNamedAfterFile version then path.stem?.getD "" else body.textAt "name"

def configuration (catalog : Catalog) (policy : LoadPolicy) (version : Version) (path : Path)
    (body : Json.Members) : Configuration :=
  { body.header (name policy version path body) with entries := entries catalog body }

end LayerOverrides.Document.Bare
