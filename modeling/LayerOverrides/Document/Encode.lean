import LayerOverrides.Document.Generation
/-!
# From configurations to documents

Documents are written as typed ones of the current version. Layers left to the application are left
out, since an absent layer is just that; an entry without a rank has the rank `-1`.
-/

namespace LayerOverrides.Document

def strings (l : List String) : Json := .array (l.map .string)

theorem toNat_mem_integers (r : UInt32) :
    -0x8000000000000000 ≤ (r.toNat : Int) ∧ (r.toNat : Int) < 0x10000000000000000 := by
  have := r.toNat_lt
  omega

def rankNumber : Option UInt32 → Json.Number
  | some r => .integer r.toNat (toNat_mem_integers r).1 (toNat_mem_integers r).2
  | none => .integer (-1) (by decide) (by decide)

def encodeSetting (s : Setting) : Json :=
  .object [("key", .string s.key), ("type", .string s.value.kind.token), ("value", s.value.toJson)]

def encodeLayer (e : LayerEntry) : Json :=
  .object [("name", .string e.layer), ("platforms", strings e.platforms.tokens),
    ("rank", .number (rankNumber e.rank)),
    ("settings", .array (e.settings.settings.map encodeSetting)),
    ("state", .string e.state.token)]

/-- The entries that a document keeps. -/
def kept (entries : List LayerEntry) : List LayerEntry :=
  entries.filter fun e => e.state ≠ .applicationControlled

def encode (c : Configuration) : Json :=
  .object [(wrapperField, .object [("description", .string c.description),
      ("editor_state", c.editorState), ("layers", .array ((kept c.entries).map encodeLayer)),
      ("name", .string c.name), ("platforms", strings c.platforms.tokens)]),
    (versionField, .string Version.current.toText)]

end LayerOverrides.Document
