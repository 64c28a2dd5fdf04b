import LayerOverrides.Builtins
import LayerOverrides.Document.Decode
import LayerOverrides.Document.Encode
/-!
# Configurations in files

Loading a document without a usable name removes its file and gives the configuration a name to
stand in. Resetting goes back to the built-in configuration of the name, else to the saved one, and
else gives every layer back to the application.
-/

namespace LayerOverrides

/-- Where the state after a reset comes from. -/
inductive ResetSource where
  | builtIn (path : Path)
  | saved (path : Path)
  | defaults
  deriving DecidableEq

namespace Configuration

/-- A name of blanks only, which is none. -/
def isNameless (c : Configuration) : Bool := Text.isBlankText c.name.toList

def load (t : FileTree) (catalog : Catalog) (policy : LoadPolicy) (p : Path) :
    FileTree × Except Error Configuration :=
  match (Storage.read t p).bind (Document.decode catalog policy p) with
  | .error e => (t, .error e)
  | .ok c =>
    if c.isNameless then (Storage.discard t p, .ok { c with name := placeholderName })
    else (t, .ok c)

def save (c : Configuration) (layout : Json.Layout) (t : FileTree) (p : Path) :
    FileTree × Except Error Unit :=
  Storage.write t p ((Document.encode c).toText layout)

/-- Saves under the configuration's name, and tells where. -/
def saveTo (c : Configuration) (t : FileTree) (resolver : Resolver) :
    FileTree × Except Error Path :=
  match resolver .saved c.name with
  | none => (t, .error .noSaveLocation)
  | some p => match c.save .pretty t p with
    | (t', .ok ()) => (t', .ok p)
    | (t', .error e) => (t', .error e)

/-- The saved file of the name, at the current place or else at the former one. -/
def savedFile? (c : Configuration) (t : FileTree) (resolver : Resolver) : Option Path :=
  ([Place.saved, Place.legacy].filterMap fun place => resolver place c.name).find? t.isFile

def isBuiltIn (c : Configuration) (t : FileTree) (builtins : Builtins) : Except Error Bool :=
  match builtins.find t c.name with
  | .error e => .error e
  | .ok entry => .ok entry.isSome

/-- The configuration in a file, in order, and where it comes from. -/
def reload (t : FileTree) (catalog : Catalog) (policy : LoadPolicy) (p : Path)
    (source : ResetSource) : FileTree × Except Error (Configuration × ResetSource) :=
  match load t catalog policy p with
  | (t', .error e) => (t', .error e)
  | (t', .ok c) => (t', .ok (c.order, source))

def reset (c : Configuration) (t : FileTree) (catalog : Catalog) (policy : LoadPolicy)
    (builtins : Builtins) (resolver : Resolver) :
    FileTree × Except Error (Configuration × ResetSource) :=
  match builtins.find t c.name with
  | .error e => (t, .error e)
  | .ok (some entry) => reload t catalog policy entry.path (.builtIn entry.path)
  | .ok none => match c.savedFile? t resolver with
    | some p => reload t catalog policy p (.saved p)
    | none => (t, .ok (c.clear catalog, .defaults))

/-- The configurations in files, one after the other; what is none is passed over. -/
def loadEach (catalog : Catalog) (policy : LoadPolicy) : FileTree → List Path →
    FileTree × List Configuration
  | t, [] => (t, [])
  | t, p :: paths =>
    match load t catalog policy p with
    | (t', .error _) => loadEach catalog policy t' paths
    | (t', .ok c) =>
      let (t'', cs) := loadEach catalog policy t' paths
      (t'', c :: cs)

def loadAll (t : FileTree) (catalog : Catalog) (policy : LoadPolicy) (directory : Path) :
    FileTree × Except Error (List Configuration) :=
  match Storage.list t directory with
  | .error e => (t, .error e)
  | .ok paths =>
    let (t', cs) := loadEach catalog policy t paths
    (t', .ok cs)

end Configuration

end LayerOverrides
