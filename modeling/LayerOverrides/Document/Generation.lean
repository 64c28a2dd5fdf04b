import LayerOverrides.Document.Fields
import LayerOverrides.Version
/-!
# Generations of documents

Documents come in three shapes, which their version tells apart: bare, where the configuration is a
member of any name; wrapped; and wrapped with settings that carry their kind. A version may be a
string or a number, and a document without a legible one has the version that the policy says.
-/

namespace LayerOverrides

/-- What reading a document needs to be told. Bare documents up to a version have the name of their
file, and those after it say their name. -/
structure LoadPolicy where
  namedAfterFileUpTo : Option Version
  unstatedVersion : Version
  deriving DecidableEq

namespace LoadPolicy

def default : LoadPolicy := ⟨some .unstated, .unstated⟩

def namesFromDocuments (policy : LoadPolicy) : LoadPolicy :=
  { policy with namedAfterFileUpTo := none }

def isNamedAfterFile (policy : LoadPolicy) (version : Version) : Bool :=
  match policy.namedAfterFileUpTo with
  | some last => version ≤ last
  | none => false

end LoadPolicy

inductive Generation where
  | bare
  | wrapped
  | typed
  deriving DecidableEq

namespace Generation

def ofVersion (v : Version) : Generation :=
  if v < .firstWrapped then .bare else if v < .firstTyped then .wrapped else .typed

def label : Generation → String
  | .bare => "2.0"
  | .wrapped => "2.1"
  | .typed => "2.2"

end Generation

namespace Document

def versionField : String := "file_format_version"

def wrapperField : String := "configuration"

/-- The version that a field states. -/
def statedVersion? : Json → Option Version
  | .string s => Version.ofString? s
  | .number n => Version.ofText? n.text
  | _ => none

def version (policy : LoadPolicy) (root : Json) : Version :=
  ((root.membersOf.get? versionField).bind statedVersion?).getD policy.unstatedVersion

end Document

end LayerOverrides
