import LayerOverrides.FileTree.Walk
/-!
# Operations on files and directories

Each operation either fails and changes nothing or gives the tree afterwards. Only two can fail
half-way: [FileTree.makeDirectories], which is a sequence of them, and [FileTree.writeFile], which
opens a file and then fills it.
-/

namespace LayerOverrides.FileTree

def pathExists (t : FileTree) (p : Path) : Bool := (t.find p).isOk

def isFile (t : FileTree) (p : Path) : Bool :=
  match t.find p with
  | .ok (_, .file _) => true
  | _ => false

def isDirectory (t : FileTree) (p : Path) : Bool :=
  match t.find p with
  | .ok (_, .directory) => true
  | _ => false

/-- The text of a file. -/
def readText (t : FileTree) (p : Path) : Except OsError String :=
  match t.find p with
  | .error e => .error e
  | .ok (_, .directory) => .error .isADirectory
  | .ok (_, .file (.binary _)) => .error .notUtf8
  | .ok (_, .file (.text s)) => .ok s

/-- The names in a directory, in no particular order. -/
def readDirectory (t : FileTree) (p : Path) : Except OsError (List FileName) :=
  match t.find p with
  | .error e => .error e
  | .ok (_, .file _) => .error .notADirectory
  | .ok (l, .directory) => .ok (t.names l)

/-- A new directory in one that is there. -/
def makeDirectory (t : FileTree) (p : Path) : Except OsError FileTree :=
  match t.target p with
  | .error e => .error e
  | .ok .nameless => .error .alreadyExists
  | .ok (.named l n _) => match t.entryAt (n :: l) with
    | some _ => .error .alreadyExists
    | none => .ok (t.insert (n :: l) .directory)

/-- Where a file is that can be opened to be written, or is created if it is not there. -/
def openFile (t : FileTree) (p : Path) : Except OsError Location :=
  match t.target p with
  | .error e => .error e
  | .ok .nameless => .error .isADirectory
  | .ok (.named _ _ true) => .error .isADirectory
  | .ok (.named l n false) => match t.entryAt (n :: l) with
    | some .directory => .error .isADirectory
    | _ => .ok (n :: l)

/-- What of a content gets into an open file before the system refuses more, if it does. -/
def fill (t : FileTree) (content : Content) : Content × Except OsError Unit :=
  match t.limit with
  | none => (content, .ok ())
  | some limit =>
    if content.bytes.length ≤ limit.bytes then (content, .ok ())
    else (.ofBytes (content.bytes.take limit.bytes), .error limit.cause)

/-- A new content for a file, which is created if it is not there; where the system refuses to
write on, what it has written so far is in place of what the file held. -/
def writeFile (t : FileTree) (p : Path) (content : Content) : FileTree × Except OsError Unit :=
  match t.openFile p with
  | .error e => (t, .error e)
  | .ok l => (t.insert l (.file (t.fill content).1), (t.fill content).2)

def removeFile (t : FileTree) (p : Path) : Except OsError FileTree :=
  match t.target p with
  | .error e => .error e
  | .ok .nameless => .error .isADirectory
  | .ok (.named l n slash) => match t.entryAt (n :: l) with
    | none => .error .notFound
    | some .directory => .error .isADirectory
    | some (.file _) => if slash then .error .notADirectory else .ok (t.erase (n :: l))

/-- Moves a file; a file that is at the new path is replaced. -/
def renameFile (t : FileTree) (p q : Path) : Except OsError FileTree :=
  match t.find p, t.target q with
  | .error e, _ => .error e
  | _, .error e => .error e
  | .ok (_, .directory), _ => .error .isADirectory
  | _, .ok .nameless => .error .busy
  | _, .ok (.named _ _ true) => .error .notADirectory
  | .ok (l, .file content), .ok (.named l' n false) => match t.entryAt (n :: l') with
    | some .directory => .error .isADirectory
    | _ => .ok ((t.erase l).insert (n :: l') (.file content))

/-- Creates the first of the paths, each of which lies in the next, and before it those of the
others that are missing. -/
def makeDirectoriesFrom (t : FileTree) : List Path → FileTree × Except OsError Unit
  | [] => (t, .ok ())
  | p :: above =>
    match t.makeDirectory p with
    | .ok t' => (t', .ok ())
    | .error .notFound =>
      match makeDirectoriesFrom t above with
      | (t', .error e) => (t', .error e)
      | (t', .ok ()) => match t'.makeDirectory p with
        | .ok t'' => (t'', .ok ())
        | .error e => if t'.isDirectory p then (t', .ok ()) else (t', .error e)
    | .error e => if t.isDirectory p then (t, .ok ()) else (t, .error e)

/-- Creates a directory and those around it; one that is there already is left alone. -/
def makeDirectories (t : FileTree) (p : Path) : FileTree × Except OsError Unit :=
  t.makeDirectoriesFrom p.ancestors

/-- Puts a file where it is to be, in directories that are created as needed. -/
def putFile (t : FileTree) (p : Path) (content : Content) : FileTree :=
  let t' := match p.parent? with
    | some parent => (t.makeDirectories parent).1
    | none => t
  (t'.writeFile p content).1

/-- Without what is at a path, and all that is inside it. -/
def delete (t : FileTree) (p : Path) : FileTree :=
  match t.find p with
  | .ok (l, _) => t.eraseAll l
  | .error _ => t

end LayerOverrides.FileTree
