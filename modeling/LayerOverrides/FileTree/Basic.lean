import LayerOverrides.Path
/-!
# File trees

A tree is a finite map from locations to entries; a location lists the names from the innermost
outwards, and the root is the empty one, which always is a directory. Paths are walked from the
root, so an entry is within reach only if all that is around it are directories.

A tree also bounds what the system writes to a file. So it tells a full disk, or whatever else stops
a write between the opening of a file and its last byte, and what is stated for every tree holds
however a write ends. Names are Unicode texts: those of other bytes, which the operating system
would take as well, are left out.
-/

namespace LayerOverrides

/-- Why the operating system refuses, with its numbers and words. -/
inductive OsError where
  | notFound
  | busy
  | alreadyExists
  | notADirectory
  | isADirectory
  | noSpace
  | nameTooLong
  | nulInPath
  | notUtf8
  deriving DecidableEq

def OsError.message : OsError → String
  | .notFound => "No such file or directory (os error 2)"
  | .busy => "Device or resource busy (os error 16)"
  | .alreadyExists => "File exists (os error 17)"
  | .notADirectory => "Not a directory (os error 20)"
  | .isADirectory => "Is a directory (os error 21)"
  | .noSpace => "No space left on device (os error 28)"
  | .nameTooLong => "File name too long (os error 36)"
  | .nulInPath => "file name contained an unexpected NUL byte"
  | .notUtf8 => "stream did not contain valid UTF-8"

/-- Names that an entry can have. -/
def FileName.Valid (s : String) : Prop :=
  s ≠ "" ∧ s ≠ "." ∧ s ≠ ".." ∧ '/' ∉ s.toList ∧ '\x00' ∉ s.toList ∧ s.utf8ByteSize ≤ 255

instance (s : String) : Decidable (FileName.Valid s) :=
  inferInstanceAs (Decidable (_ ∧ _ ∧ _ ∧ _ ∧ _ ∧ _))

abbrev FileName := { s : String // FileName.Valid s }

namespace FileName

def ofString? (s : String) : Option FileName := if h : Valid s then some ⟨s, h⟩ else none

def toSegment (n : FileName) : Path.Segment := ⟨n.1, n.2.2.2.2.1⟩

end FileName

abbrev Location := List FileName

/-- A location as a path from the root. -/
def Location.toText (l : Location) : String :=
  String.ofList (Text.join '/' (l.reverse.map fun n => n.1.toList))

/-- What a file holds: a text, or bytes that are not the encoding of one. -/
inductive Content where
  | text (value : String)
  | binary (bytes : List UInt8)
  deriving DecidableEq

def Content.ofBytes (bytes : List UInt8) : Content :=
  match String.fromUTF8? ⟨bytes.toArray⟩ with
  | some s => .text s
  | none => .binary bytes

def Content.bytes : Content → List UInt8
  | .text s => s.toByteArray.data.toList
  | .binary bytes => bytes

inductive Entry where
  | directory
  | file (content : Content)
  deriving DecidableEq

/-- How many bytes of a file the system writes, and why it refuses to write more. -/
structure WriteLimit where
  bytes : Nat
  cause : OsError
  deriving DecidableEq

structure FileTree where
  entries : List (Location × Entry)
  nodup : (entries.map Prod.fst).Nodup
  limit : Option WriteLimit
  deriving DecidableEq

namespace FileTree

/-- The tree of no entry but the root, with no bound to what is written. -/
def empty : FileTree := ⟨[], by simp, none⟩

def entryAt (t : FileTree) (l : Location) : Option Entry :=
  if l = [] then some .directory else t.entries.lookup l

def insert (t : FileTree) (l : Location) (e : Entry) : FileTree where
  entries := (l, e) :: t.entries.filter fun x => x.1 ≠ l
  nodup := by
    rw [List.map_cons, List.nodup_cons]
    refine ⟨?_, t.nodup.sublist (List.filter_sublist.map _)⟩
    simp
  limit := t.limit

def erase (t : FileTree) (l : Location) : FileTree where
  entries := t.entries.filter fun x => x.1 ≠ l
  nodup := t.nodup.sublist (List.filter_sublist.map _)
  limit := t.limit

/-- Without an entry and all that is inside it. -/
def eraseAll (t : FileTree) (l : Location) : FileTree where
  entries := t.entries.filter fun x => !l.isSuffixOf x.1
  nodup := t.nodup.sublist (List.filter_sublist.map _)
  limit := t.limit

/-- The names directly inside a location. -/
def names (t : FileTree) (l : Location) : List FileName :=
  t.entries.filterMap fun x => match x.1 with
    | n :: l' => if l' = l then some n else none
    | [] => none

theorem lookup_filter_ne {l l' : Location} (entries : List (Location × Entry)) :
    (entries.filter fun x => x.1 ≠ l).lookup l' = if l' = l then none else entries.lookup l' := by
  induction entries with
  | nil => simp
  | cons x entries ih =>
    obtain ⟨k, e⟩ := x
    by_cases hk : k = l
    · subst hk
      rw [List.filter_cons_of_neg (by simp), ih]
      by_cases h : l' = k
      · rw [if_pos h, if_pos h]
      · rw [if_neg h, if_neg h, List.lookup_cons, beq_false_of_ne h]
    · rw [List.filter_cons_of_pos (by simpa using hk), List.lookup_cons, List.lookup_cons, ih]
      by_cases h : l' = k
      · subst h
        simp [hk]
      · rw [beq_false_of_ne h]

theorem entryAt_nil (t : FileTree) : t.entryAt [] = some .directory := if_pos rfl

theorem entryAt_insert (t : FileTree) {l : Location} (hl : l ≠ []) (e : Entry) (l' : Location) :
    (t.insert l e).entryAt l' = if l' = l then some e else t.entryAt l' := by
  unfold entryAt insert
  by_cases h' : l' = []
  · subst h'
    rw [if_pos rfl, if_neg (Ne.symm hl), if_pos rfl]
  · rw [if_neg h', if_neg h', List.lookup_cons]
    by_cases h : l' = l
    · subst h
      simp
    · rw [beq_false_of_ne h, if_neg h, lookup_filter_ne, if_neg h]

theorem entryAt_erase (t : FileTree) (l l' : Location) (hl : l ≠ []) :
    (t.erase l).entryAt l' = if l' = l then none else t.entryAt l' := by
  unfold entryAt erase
  by_cases h' : l' = []
  · subst h'
    rw [if_pos rfl, if_neg (Ne.symm hl), if_pos rfl]
  · rw [if_neg h', if_neg h', lookup_filter_ne]

end FileTree

end LayerOverrides
