import LayerOverrides.Configuration.Basic
import LayerOverrides.Sorting
/-!
# The order of layer entries

Entries are kept by ascending rank, those without a rank at the end, and entries of one rank in the
order in which they came.
-/

namespace LayerOverrides

/-- Whether an entry may stand in front of another. -/
def LayerEntry.mayPrecede (a b : LayerEntry) : Bool :=
  match a.rank, b.rank with
  | some m, some n => m ≤ n
  | some _, none => true
  | none, some _ => false
  | none, none => true

def ordered (entries : List LayerEntry) : List LayerEntry := sortBy LayerEntry.mayPrecede entries

/-- The entry takes the place of the first one for its layer, or comes last. -/
def replaceIn (entry : LayerEntry) : List LayerEntry → List LayerEntry
  | [] => [entry]
  | e :: entries => if e.layer = entry.layer then entry :: entries else e :: replaceIn entry entries

namespace Configuration

def order (c : Configuration) : Configuration := { c with entries := ordered c.entries }

def insert (c : Configuration) (entry : LayerEntry) : Configuration :=
  order { c with entries := replaceIn entry c.entries }

/-- An entry given back to the application, with the catalog's defaults. -/
def cleared (catalog : Catalog) (e : LayerEntry) : LayerEntry :=
  { e with state := .applicationControlled, rank := none, settings := catalog.defaults e.layer }

def clear (c : Configuration) (catalog : Catalog) : Configuration :=
  order { c with entries := c.entries.map (cleared catalog) }

end Configuration

end LayerOverrides
