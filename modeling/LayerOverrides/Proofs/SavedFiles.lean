import LayerOverrides.Configuration.Files
import LayerOverrides.Proofs.AtomicWrite

/-!
# Which configurations share a saved file

The file of a configuration is called after its name, with separators turned into underscores, so
names share a file exactly if they agree after that (`fileIn_eq_iff`).  A save writes to that file,
by way of a temporary one, whose name ends differently; so a document that has been saved is still
in its file after the save of another configuration, unless that one has the same file
(`readText_after_saves`).  Two different names do share a file if one has an underscore where the
other has a separator: the later save then replaces the document of the earlier one
(`slashed_overwritten`).
-/

namespace LayerOverrides

namespace Locations

theorem fileName_inj {m n : String} :
    fileName m = fileName n ↔ withoutSeparators m.toList = withoutSeparators n.toList := by
  rw [fileName, fileName, Subtype.mk.injEq, String.ofList_inj, List.append_cancel_right_eq]

theorem toList_fileName (name : String) :
    (fileName name).1.toList = withoutSeparators name.toList ++ ['.', 'j', 's', 'o', 'n'] := by
  simp [fileName, extension]

theorem fileName_ne_of_length {s : Path.Segment} (h : s.1.toList.length < 5) (name : String) :
    fileName name ≠ s := by
  rintro rfl
  simp only [toList_fileName, List.length_append, List.length_cons] at h
  omega

theorem fileName_ne_temporaryName (name : String) (s : Path.Segment) :
    fileName name ≠ Storage.temporaryName s := by
  intro h
  have hlast := congrArg (fun s : Path.Segment => s.1.toList.getLast?) h
  simp [toList_fileName, Storage.temporaryName] at hlast

theorem isIdle_fileName (name : String) : (fileName name).isIdle = false := by
  simp only [Path.Segment.isIdle, Bool.or_eq_false_iff, decide_eq_false_iff_not]
  exact ⟨fileName_ne_of_length (by decide) name, fileName_ne_of_length (by decide) name⟩

theorem fileName_ne_dots (name : String) : fileName name ≠ .dots :=
  fileName_ne_of_length (by decide) name

theorem fileName?_fileIn (directory : Path) (name : String) :
    (fileIn directory name).fileName? = some (fileName name) :=
  Path.fileName?_child (isIdle_fileName name) (fileName_ne_dots name) directory

/-- Two names have the same file exactly if they agree once their separators are underscores. -/
theorem fileIn_eq_iff {directory : Path} {m n : String} :
    fileIn directory m = fileIn directory n ↔
      withoutSeparators m.toList = withoutSeparators n.toList :=
  Path.child_inj.trans fileName_inj

end Locations

open Locations

/-- The text that a save writes. -/
def Configuration.savedText (c : Configuration) : String := (Document.encode c).toText .pretty

theorem write_of_saveTo {locations : Locations} {t t' : FileTree} {c : Configuration} {p : Path}
    (h : c.saveTo t locations.resolve = (t', .ok p)) :
    p = fileIn locations.saved c.name ∧ Storage.write t p c.savedText = (t', .ok ()) := by
  unfold Configuration.saveTo at h
  split at h
  · exact absurd h (by simp)
  rename_i q hq
  obtain rfl : fileIn locations.saved c.name = q := Option.some.inj hq
  split at h
  · rename_i t₁ hsave
    obtain ⟨rfl, hp⟩ := Prod.mk.inj h
    obtain rfl := Except.ok.inj hp
    exact ⟨rfl, hsave⟩
  · exact absurd h (by simp)

/-- Names share a file exactly if they agree once their separators are underscores; after two
saves, the first file holds the second document if the names share it, and else still the first. -/
theorem readText_after_saves :
    (∀ (directory : Path) (m n : String), fileIn directory m = fileIn directory n ↔
      withoutSeparators m.toList = withoutSeparators n.toList) ∧
    ∀ (locations : Locations) (t t₁ t₂ : FileTree) (a b : Configuration) (p q : Path),
      a.saveTo t locations.resolve = (t₁, .ok p) → b.saveTo t₁ locations.resolve = (t₂, .ok q) →
        t₂.readText p = .ok (if withoutSeparators a.name.toList = withoutSeparators b.name.toList
          then b.savedText else a.savedText) := by
  refine ⟨fun directory m n => fileIn_eq_iff, fun locations t t₁ t₂ a b p q ha hb => ?_⟩
  obtain ⟨rfl, hwrite⟩ := write_of_saveTo ha
  obtain ⟨rfl, hwrite'⟩ := write_of_saveTo hb
  split
  · rename_i hnames
    rw [fileIn_eq_iff.2 hnames]
    exact Storage.readText_of_write hwrite'
  · rename_i hnames
    obtain ⟨l, n, hn, hfind⟩ := Storage.find_self_of_write hwrite
    rw [fileName?_fileIn, Option.some.injEq] at hn
    have hfind' := Storage.find_of_write hwrite' (fileName?_fileIn _ _) hfind
      (by rw [← hn, ne_eq, fileName_inj]; exact hnames)
      (by rw [← hn]; exact fileName_ne_temporaryName _ _)
    rw [FileTree.readText, hfind']

namespace Samples

def locations : Locations := ⟨.ofString "d", none, none⟩

def slashed : Configuration := .named "a/b"

def dashed : Configuration := .named "a-b"

def underscored : Configuration := .named "a_b"

def fileOf (c : Configuration) : Path := fileIn locations.saved c.name

/-- What a save makes of a tree. -/
def afterSave (t : FileTree) (c : Configuration) : FileTree := (c.saveTo t locations.resolve).1

/-- The tree with nothing but the directory and the file of the slashed name. -/
def slashedSaved : FileTree := afterSave .empty slashed

theorem saveTo_slashed :
    slashed.saveTo .empty locations.resolve = (slashedSaved, .ok (fileOf slashed)) :=
  Prod.ext rfl (by decide +kernel)

end Samples

open Samples

theorem readText_after_saves_dashed :
    dashed.saveTo slashedSaved locations.resolve =
        (afterSave slashedSaved dashed, .ok (fileOf dashed)) ∧
      (afterSave slashedSaved dashed).readText (fileOf slashed) = .ok slashed.savedText := by
  have hdashed : dashed.saveTo slashedSaved locations.resolve =
      (afterSave slashedSaved dashed, .ok (fileOf dashed)) := Prod.ext rfl (by decide +kernel)
  have h := readText_after_saves.2 _ _ _ _ _ _ _ _ saveTo_slashed hdashed
  rw [if_neg (by decide)] at h
  exact ⟨hdashed, h⟩

/-- Two different names with one file: both saves succeed, and the first document is gone. -/
theorem slashed_overwritten :
    slashed.name ≠ underscored.name ∧ fileOf slashed = fileOf underscored ∧
      slashed.saveTo .empty locations.resolve = (slashedSaved, .ok (fileOf slashed)) ∧
      underscored.saveTo slashedSaved locations.resolve =
        (afterSave slashedSaved underscored, .ok (fileOf underscored)) ∧
      (afterSave slashedSaved underscored).readText (fileOf slashed) ≠ .ok slashed.savedText := by
  have hfile : fileOf slashed = fileOf underscored := fileIn_eq_iff.2 (by decide)
  have hunderscored : underscored.saveTo slashedSaved locations.resolve =
      (afterSave slashedSaved underscored, .ok (fileOf underscored)) :=
    Prod.ext rfl (by decide +kernel)
  refine ⟨by decide, hfile, saveTo_slashed, hunderscored, ?_⟩
  rw [hfile, Storage.readText_of_write (write_of_saveTo hunderscored).2]
  intro h
  exact absurd (String.ofList_injective (Except.ok.inj h)) (by decide +kernel)

end LayerOverrides
