import LayerOverrides.Storage
/-!
# Built-in configurations

An application may come with configurations of its own, found by name. They are a fixed list or
the document files of a directory.
-/

namespace LayerOverrides

structure Builtin where
  name : String
  path : Path
  deriving DecidableEq

/-- A source of built-in configurations, which may look into the file tree and may fail. -/
structure Builtins where
  list : FileTree → Except Error (List Builtin)

namespace Builtins

def fixed (entries : List Builtin) : Builtins := ⟨fun _ => .ok entries⟩

/-- The document files of a directory, each under its name without the extension. -/
def inDirectory (directory : Path) : Builtins where
  list t := match Storage.list t directory with
    | .error e => .error e
    | .ok paths =>
      .ok (sortBy (fun a b => !decide (b.name < a.name))
        (paths.filterMap fun p => p.stem?.map fun name => ⟨name, p⟩))

def find (b : Builtins) (t : FileTree) (name : String) : Except Error (Option Builtin) :=
  match b.list t with
  | .error e => .error e
  | .ok entries => .ok (entries.find? fun e => e.name == name)

end Builtins

end LayerOverrides
