import LayerOverrides.Error
import LayerOverrides.FileTree.Operations
import LayerOverrides.Json.Reader
import LayerOverrides.Json.Writer
import LayerOverrides.Locations
import LayerOverrides.Sorting
/-!
# Documents in files

A document is written to a temporary file beside its own, which then takes the place of what was
there, so that a write that fails leaves the former document as it was; the temporary file is taken
away again. A directory is listed by the names of its document files.
-/

namespace LayerOverrides.Storage

/-- The document in a file. -/
def read (t : FileTree) (p : Path) : Except Error Json :=
  match t.readText p with
  | .error e => .error (.fileRead p e)
  | .ok s => match Json.ofString? s with
    | some root => .ok root
    | none => .error .parse

/-- The tree without a file, if it can be removed. -/
def discard (t : FileTree) (p : Path) : FileTree :=
  match t.removeFile p with
  | .ok t' => t'
  | .error _ => t

def temporaryName (name : Path.Segment) : Path.Segment where
  val := String.ofList (name.1.toList ++ ['.', 't', 'm', 'p'])
  property := by
    rw [String.toList_ofList, List.mem_append, not_or]
    exact ⟨name.2, by decide⟩

/-- Creates the directories around a path. -/
def prepare (t : FileTree) (p : Path) : FileTree × Except Error Unit :=
  match p.parent? with
  | none => (t, .ok ())
  | some parent => match t.makeDirectories parent with
    | (t', .ok ()) => (t', .ok ())
    | (t', .error e) => (t', .error (.directoryCreate parent e))

/-- Writes a file by way of its temporary one, in a directory that is there. -/
def replace (t : FileTree) (temporary p : Path) (content : String) : FileTree × Except Error Unit :=
  match t.writeFile temporary (.text content) with
  | (t', .error e) => (discard t' temporary, .error (.fileWrite temporary e))
  | (t', .ok ()) => match t'.renameFile temporary p with
    | .error e => (discard t' temporary, .error (.fileWrite p e))
    | .ok t'' => (t'', .ok ())

def write (t : FileTree) (p : Path) (content : String) : FileTree × Except Error Unit :=
  match prepare t p with
  | (t', .error e) => (t', .error e)
  | (t', .ok ()) => match p.fileName? with
    | none => (t', .error (.noFileName p))
    | some name => replace t' (p.withFileName (temporaryName name)) p content

/-- The document files in a directory by name; a directory that is missing has none. -/
def list (t : FileTree) (directory : Path) : Except Error (List Path) :=
  if t.pathExists directory then
    match t.readDirectory directory with
    | .error e => .error (.directoryRead directory e)
    | .ok names =>
      let sorted := sortBy (fun m n : FileName => !decide (n.1 < m.1)) names
      .ok ((sorted.map fun n => directory.child n.toSegment).filter fun p =>
        t.isFile p && p.extension? == some Locations.extension)
  else .ok []

end LayerOverrides.Storage
