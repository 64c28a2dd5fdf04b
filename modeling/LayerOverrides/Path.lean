import LayerOverrides.Text.Separated
/-!
# Paths

A path is a text cut into segments at its slashes; `Path.text` and `Path.ofText` lose nothing. Two
slashes in a row leave an empty segment, and a path is rooted if it begins with a slash. Empty
segments and dots stand for no component, except a dot at the very front; taking the parent or the
file name passes over them at the end of a path, and leaves them alone elsewhere. Paths of bytes
that are no Unicode text are left out.
-/

namespace LayerOverrides

/-- The text between two slashes. -/
abbrev Path.Segment := { s : String // '/' ∉ s.toList }

structure Path where
  segments : List Path.Segment
  segments_ne_nil : segments ≠ []
  deriving DecidableEq

namespace Path

namespace Segment

def empty : Segment := ⟨"", by decide⟩

def dot : Segment := ⟨".", by decide⟩

def dots : Segment := ⟨"..", by decide⟩

/-- A segment that stands for no component unless it is a dot at the front. -/
def isIdle (s : Segment) : Bool := s = empty || s = dot

end Segment

def ofText (s : List Char) : Path where
  segments := (Text.split '/' s).attach.map fun part =>
    ⟨String.ofList part.1, by
      rw [String.toList_ofList]
      exact Text.not_mem_of_mem_split part.2⟩
  segments_ne_nil := by
    intro h
    exact Text.split_ne_nil '/' s (by simpa using h)

def ofString (s : String) : Path := ofText s.toList

def text (p : Path) : List Char := Text.join '/' (p.segments.map fun s => s.1.toList)

def toText (p : Path) : String := String.ofList p.text

/-- The path of no segment but the empty one. -/
def empty : Path := ⟨[.empty], by simp⟩

def isRooted (p : Path) : Bool :=
  match p.segments with
  | first :: _ :: _ => first = .empty
  | _ => false

/-- The segments behind the root. -/
def body (p : Path) : List Segment := if p.isRooted then p.segments.tail else p.segments

/-- The path with these segments behind its root, or from its front. -/
def ofBody (rooted : Bool) (body : List Segment) : Path :=
  let segments := if body = [] then [Segment.empty] else body
  if rooted then ⟨.empty :: segments, by simp⟩
  else ⟨segments, by by_cases h : body = [] <;> simp [segments, h]⟩

/-- The segments up to the last that stands for a component. -/
def withoutIdleEnd (rooted : Bool) (body : List Segment) : List Segment :=
  match (body.reverse.dropWhile Segment.isIdle).reverse with
  | [] => if rooted then [] else body.head?.toList.filter (· = .dot)
  | kept => kept

/-- The path in front of the last component, if there is a component behind the root. -/
def parent? (p : Path) : Option Path :=
  match withoutIdleEnd p.isRooted p.body with
  | [] => none
  | kept => some (ofBody p.isRooted (withoutIdleEnd p.isRooted kept.dropLast))

/-- The last component, if it is a name. -/
def fileName? (p : Path) : Option Segment :=
  match (withoutIdleEnd p.isRooted p.body).getLast? with
  | some last => if last = .dot ∨ last = .dots then none else some last
  | none => none

/-- A rooted path replaces what it is joined to; any other goes behind a single slash. -/
def join (p q : Path) : Path :=
  if q.isRooted ∨ p = empty then q
  else if p.segments.getLast? = some .empty then
    ⟨p.segments.dropLast ++ q.segments, by simp [q.segments_ne_nil]⟩
  else ⟨p.segments ++ q.segments, by simp [q.segments_ne_nil]⟩

def child (p : Path) (name : Segment) : Path := p.join ⟨[name], by simp⟩

/-- The path with another name in place of its last component. -/
def withFileName (p : Path) (name : Segment) : Path := (p.parent?.getD p).child name

/-- The path and those in front of it, from the longest on; the empty path is left out. -/
def ancestors (p : Path) : List Path := go p.segments.length p
where
  go : Nat → Path → List Path
    | 0, _ => []
    | n + 1, p =>
      if p = empty then []
      else p :: match p.parent? with
        | some q => go n q
        | none => []

/-- A name without its extension, and the extension: what follows the last point, unless that
point is the first character. -/
def splitExtension (name : List Char) : List Char × Option (List Char) :=
  match name.reverse.dropWhile (· ≠ '.') with
  | [] => (name, none)
  | _ :: [] => (name, none)
  | _ :: stem => (stem.reverse, some (name.reverse.takeWhile (· ≠ '.')).reverse)

def stem? (p : Path) : Option String :=
  p.fileName?.map fun name => String.ofList (splitExtension name.1.toList).1

def extension? (p : Path) : Option String :=
  p.fileName?.bind fun name => (splitExtension name.1.toList).2.map String.ofList

/-- What a path consists of, its idle segments aside. -/
inductive Component where
  | root
  | current
  | parent
  | name (name : Segment)
  deriving DecidableEq

def component? (s : Segment) : Option Component :=
  if s.isIdle then none else if s = .dots then some .parent else some (.name s)

def components (p : Path) : List Component :=
  if p.isRooted then .root :: p.body.filterMap component?
  else match p.body with
    | [] => []
    | first :: rest =>
      (if first = .dot then [.current] else (component? first).toList) ++ rest.filterMap component?

/-- A tilde as the first component stands for the home directory. -/
def expandHome (home p : Path) : Path :=
  if p.components.head? = some (.name ⟨"~", by decide⟩) then
    let rest := p.segments.tail.dropWhile Segment.isIdle
    home.join (ofBody false (rest.reverse.dropWhile Segment.isIdle).reverse)
  else p

end Path

end LayerOverrides
