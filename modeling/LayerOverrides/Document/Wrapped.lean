import LayerOverrides.Document.Generation
/-!
# Wrapped documents

The configuration is the member `configuration`; its layers are an array of objects with a name, a
state, a rank, platforms and an array of settings. In typed documents a setting says its kind, and
one without a legible kind takes that of the value that is there; in the others a setting that is
not declared is a plain text. Of two entries for one layer the first counts.
-/

namespace LayerOverrides.Document.Wrapped

def body? (root : Json.Members) : Option Json.Members :=
  (root.get? wrapperField).bind Json.members?

/-- The kind for a setting, from its token and the kind that its key has. -/
def kind? (typed : Bool) (token : String) (known : Option Setting.Kind) : Option Setting.Kind :=
  if typed then (Setting.Kind.ofToken? token).or known else some (.text .plain)

/-- Reads the fields of a setting with a key. -/
def readFields (typed : Bool) (settings : SettingSet) (key : String) (fields : Json.Members) :
    SettingSet :=
  match kind? typed (fields.textAt "type") ((settings.get? key).map Setting.Value.kind) with
  | none => settings
  | some kind => match fields.get? "value" with
    | some node => (settings.create key kind).load key node
    | none => settings.create key kind

def readSetting (typed : Bool) (settings : SettingSet) : Json → SettingSet
  | .object fields =>
    if Json.Members.textAt fields "key" = "" then settings
    else readFields typed settings (Json.Members.textAt fields "key") fields
  | _ => settings

def readFieldsOfLayer (typed : Bool) (catalog : Catalog) (fields : Json.Members) : LayerEntry where
  layer := fields.textAt "name"
  state := .ofToken (fields.textAt "state")
  rank := fields.rankAt "rank"
  platforms := fields.platforms
  settings := (fields.itemsAt "settings").foldl (readSetting typed)
    (catalog.defaults (fields.textAt "name"))

/-- The entry of a layer with a name. -/
def readLayer? (typed : Bool) (catalog : Catalog) : Json → Option LayerEntry
  | .object fields =>
    if Json.Members.textAt fields "name" = "" then none
    else some (readFieldsOfLayer typed catalog fields)
  | _ => none

/-- Puts an entry at the end, unless there is one for its layer. -/
def addNew (entries : List LayerEntry) (entry : LayerEntry) : List LayerEntry :=
  if entries.any fun e => e.layer == entry.layer then entries else entries ++ [entry]

def entries (typed : Bool) (catalog : Catalog) (body : Json.Members) : List LayerEntry :=
  ((body.itemsAt "layers").filterMap (readLayer? typed catalog)).foldl addNew []

def configuration (typed : Bool) (catalog : Catalog) (body : Json.Members) : Configuration :=
  { body.header (body.textAt "name") with entries := entries typed catalog body }

end LayerOverrides.Document.Wrapped
