import LayerOverrides.Catalog
import LayerOverrides.Platform
import LayerOverrides.Text.Blank
/-!
# Configurations

A configuration is a named list of layer entries. Each entry says whether its layer is forced on,
forced off or left to the application, where it ranks, on which platforms it applies, and which
setting values it carries.
-/

namespace LayerOverrides

inductive LayerState where
  | overridden
  | excluded
  | applicationControlled
  deriving DecidableEq

namespace LayerState

def token : LayerState → String
  | .overridden => "OVERRIDDEN"
  | .excluded => "EXCLUDED"
  | .applicationControlled => "APPLICATION_CONTROLLED"

/-- Every token but the two others leaves the layer to the application. -/
def ofToken (s : String) : LayerState :=
  (Text.findSpelled [.overridden, .excluded] token (Text.trim s.toList)).getD
    .applicationControlled

theorem ofToken_token (s : LayerState) : ofToken s.token = s := by cases s <;> decide

end LayerState

/-- What a configuration says of one layer; an entry without a rank comes after all with one. -/
structure LayerEntry where
  layer : String
  state : LayerState
  rank : Option UInt32
  platforms : PlatformSet
  settings : SettingSet
  deriving DecidableEq

/-- An entry with the catalog's defaults; the settings of an unknown layer are empty. -/
def LayerEntry.seeded (catalog : Catalog) (layer : String) (state : LayerState) : LayerEntry :=
  ⟨layer, state, none, .all, catalog.defaults layer⟩

structure Configuration where
  name : String
  description : String
  platforms : PlatformSet
  /-- What an editor keeps with the configuration; it is only passed on. -/
  editorState : Json
  entries : List LayerEntry

namespace Configuration

/-- The name for a configuration whose document has none. -/
def placeholderName : String := "Configuration"

def named (name : String) : Configuration := ⟨name, "", .all, .null, []⟩

def default : Configuration := named "New Configuration"

/-- Equality, with the editor states compared as JSON values. -/
def same (c d : Configuration) : Bool :=
  c.name = d.name && c.description = d.description && c.platforms = d.platforms &&
    c.editorState.same d.editorState && c.entries = d.entries

def find? (c : Configuration) (layer : String) : Option LayerEntry :=
  c.entries.find? fun e => e.layer == layer

/-- Changes the first entry of a layer. -/
def modify (c : Configuration) (layer : String) (f : LayerEntry → LayerEntry) : Configuration :=
  { c with entries := modifyIn c.entries }
where
  modifyIn : List LayerEntry → List LayerEntry
    | [] => []
    | e :: entries => if e.layer = layer then f e :: entries else e :: modifyIn entries

/-- Whether an entry for the platform takes its layer from the application. -/
def overridesOn (c : Configuration) (p : Platform) : Bool :=
  c.entries.any fun e => e.platforms.contains p && e.state ≠ .applicationControlled

def isAvailableOn (c : Configuration) (p : Platform) : Bool := c.platforms.contains p

def isAvailableHere (c : Configuration) : Bool := c.isAvailableOn .current

end Configuration

end LayerOverrides
