import LayerOverrides.Path
/-!
# Where configurations are kept

Configurations are saved in one directory, may be left over in a second one from older releases,
and may come with the application in a third. In each, the file of a configuration is called after
it, with separators of paths turned into underscores.
-/

namespace LayerOverrides

inductive Place where
  | saved
  | legacy
  | builtIn
  deriving DecidableEq

/-- The file for a configuration's name in a place, if there is such a place. -/
abbrev Resolver := Place → String → Option Path

structure Locations where
  saved : Path
  legacy : Option Path
  builtIn : Option Path
  deriving DecidableEq

namespace Locations

/-- The directory of the application among those for settings. -/
def applicationDirectory : String := "layerconf"

/-- The extension of files that hold configurations. -/
def extension : String := "json"

def withoutSeparators (name : List Char) : List Char :=
  name.map fun c => if c = '/' ∨ c = '\\' then '_' else c

def fileName (name : String) : Path.Segment where
  val := String.ofList (withoutSeparators name.toList ++ '.' :: extension.toList)
  property := by
    rw [String.toList_ofList, List.mem_append, not_or]
    refine ⟨?_, by decide⟩
    intro h
    obtain ⟨c, -, hc⟩ := List.mem_map.1 h
    split at hc
    · exact absurd hc (by decide)
    · rename_i hne
      exact hne (Or.inl hc)

def fileIn (directory : Path) (name : String) : Path := directory.child (fileName name)

def directory? (l : Locations) : Place → Option Path
  | .saved => some l.saved
  | .legacy => l.legacy
  | .builtIn => l.builtIn

def resolve (l : Locations) : Resolver := fun place name =>
  (l.directory? place).map fun directory => fileIn directory name

/-- The directory for saved configurations that is used if no other is given. -/
def defaultSaved (home : Path) : Path :=
  ((home.join (.ofString ".config")).join (.ofString applicationDirectory)).join
    (.ofString "configurations")

/-- Locations from directories that may begin with a tilde. -/
def ofDirectories (home : Path) (saved legacy builtIn : Option Path) : Locations where
  saved := (saved.map (Path.expandHome home)).getD (defaultSaved home)
  legacy := legacy.map (Path.expandHome home)
  builtIn := builtIn.map (Path.expandHome home)

end Locations

end LayerOverrides
