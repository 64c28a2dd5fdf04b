import LayerOverrides.FileTree.Basic
/-!
# Walking paths in a file tree

A path is walked segment by segment from the root, which is also where paths without a root begin.
Each segment asks for a directory to stand in; the last one may name an entry that is not there,
which operations that create one need.
-/

namespace LayerOverrides

namespace FileTree

/-- Succeeds where a directory is. -/
def enter (t : FileTree) (l : Location) : Except OsError Location :=
  match t.entryAt l with
  | some .directory => .ok l
  | some (.file _) => .error .notADirectory
  | none => .error .notFound

/-- The location that a segment leads to; a name may lead to one without an entry. -/
def step (t : FileTree) (l : Location) (s : Path.Segment) : Except OsError Location :=
  match t.enter l with
  | .error e => .error e
  | .ok l =>
    if s.isIdle then .ok l
    else if s = .dots then .ok l.tail
    else match FileName.ofString? s.1 with
      | some n => .ok (n :: l)
      | none => .error .nameTooLong

def walk (t : FileTree) : Location → List Path.Segment → Except OsError Location
  | l, [] => .ok l
  | l, s :: segments =>
    match t.step l s with
    | .ok l' => walk t l' segments
    | .error e => .error e

/-- A path that may be walked at all: of at most 4095 bytes, not empty, and without NUL. -/
def checkPath (p : Path) : Except OsError Unit :=
  if '\x00' ∈ p.text then .error .nulInPath
  else if p = .empty then .error .notFound
  else if 4096 ≤ p.toText.utf8ByteSize then .error .nameTooLong
  else .ok ()

/-- The entry at the end of a path. -/
def find (t : FileTree) (p : Path) : Except OsError (Location × Entry) :=
  match checkPath p with
  | .error e => .error e
  | .ok () => match t.walk [] p.segments with
    | .error e => .error e
    | .ok l => match t.entryAt l with
      | some e => .ok (l, e)
      | none => .error .notFound

/-- Where an operation on the last segment of a path acts: on a name in a directory, behind which
there may be slashes, or on no name, as at the root and behind dots. -/
inductive Target where
  | nameless
  | named (directory : Location) (name : FileName) (slash : Bool)

def target (t : FileTree) (p : Path) : Except OsError Target :=
  match checkPath p with
  | .error e => .error e
  | .ok () => match p.segments.reverse.dropWhile (· = .empty) with
    | [] => .ok .nameless
    | last :: front => match (t.walk [] front.reverse).bind t.enter with
      | .error e => .error e
      | .ok l =>
        if last = .dot ∨ last = .dots then .ok .nameless
        else match FileName.ofString? last.1 with
          | some n => .ok (.named l n (p.segments.getLast? = some .empty))
          | none => .error .nameTooLong

end FileTree

end LayerOverrides
