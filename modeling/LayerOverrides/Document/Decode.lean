import LayerOverrides.Configuration.Order
import LayerOverrides.Document.Bare
import LayerOverrides.Document.Wrapped
import LayerOverrides.Error
/-!
# From documents to configurations

A document is read by the rules of its generation, and the entries are put in order. The only
documents that are refused are those without a configuration in the place for it.
-/

namespace LayerOverrides.Document

/-- The configuration of a document, its entries as they are read. -/
def configuration? (catalog : Catalog) (policy : LoadPolicy) (path : Path) (root : Json) :
    Option Configuration :=
  match root.members? with
  | none => none
  | some members => match Generation.ofVersion (version policy root) with
    | .bare =>
      (Bare.body? members).map (Bare.configuration catalog policy (version policy root) path)
    | .wrapped => (Wrapped.body? members).map (Wrapped.configuration false catalog)
    | .typed => (Wrapped.body? members).map (Wrapped.configuration true catalog)

/-- The configuration of a document; its path tells the name of an old one, and stands in errors. -/
def decode (catalog : Catalog) (policy : LoadPolicy) (path : Path) (root : Json) :
    Except Error Configuration :=
  match configuration? catalog policy path root with
  | some c => .ok c.order
  | none => .error (.notAConfiguration path)

end LayerOverrides.Document
