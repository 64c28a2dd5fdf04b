import LayerOverrides.Proofs.Listings
import LayerOverrides.Proofs.PathComponents
import LayerOverrides.Proofs.SavedFiles
import LayerOverrides.Proofs.WriteOutcomes

/-!
# A save stays in its directory

Whatever the name of a configuration, its file is one component behind the directory, and so is the
temporary file (`components_fileIn`, `components_temporary`).  A write changes no files but those
that its two paths lead to (`file_iff_or_walk`), and these are under their names in the directory
that the path in front leads to, so a save changes no file elsewhere (`saveTo_inDirectory`).
-/

namespace LayerOverrides

namespace FileTree

variable {t : FileTree} {directory : Path} {s name : Path.Segment} {l : Location}

/-- The location of a name in the directory that a path leads to, be that path as long as it may;
the empty path leads to the root. -/
def IsChildAt (t : FileTree) (directory : Path) (name : Path.Segment) (l : Location) : Prop :=
  ∃ (n : FileName) (d : Location), n.toSegment = name ∧ l = n :: d ∧
    t.walk [] directory.segments = .ok d ∧ t.entryAt d = some .directory

theorem isChildAt_of_walk_child (hs : s.isIdle = false) (hdots : s ≠ .dots)
    (h : t.walk [] (directory.child s).segments = .ok l) : t.IsChildAt directory s l := by
  obtain ⟨n, rfl⟩ := exists_name_of_walk_child hs hdots h
  obtain ⟨d, hl, hwalk, hd⟩ := walk_child_eq_ok.1 h
  exact ⟨n, d, rfl, hl, hwalk, hd⟩

/-- The sibling of a child may leave idle segments out, which lead nowhere else. -/
theorem walk_child_of_walk_sibling (hs : s.isIdle = false)
    (h : t.walk [] ((directory.child s).withFileName name).segments = .ok l) :
    t.walk [] (directory.child name).segments = .ok l := by
  obtain ⟨front, hchild, -⟩ := directory.child_segments
  obtain ⟨kept, idle, rfl, hidle, hsibling⟩ := Path.exists_sibling (hchild s) hs (by simp)
  rw [hsibling, walk_append] at h
  rw [hchild, walk_append, walk_append]
  cases hk : t.walk [] kept with
  | error e => simp [hk, Except.bind] at h
  | ok k =>
    rw [hk, Except.bind, walk_singleton] at h
    obtain ⟨hd, -⟩ := step_eq_ok.1 h
    simp only [Except.bind, walk_idle hd hidle, walk_singleton, h]

end FileTree

namespace Storage

open FileTree

/-- A write leaves every file as it is but those that its path and the temporary one lead to. -/
theorem file_iff_or_walk (t : FileTree) (p : Path) (content : String) (l : Location) :
    (∀ c, (write t p content).1.entryAt l = some (.file c) ↔ t.entryAt l = some (.file c)) ∨
      (write t p content).1.walk [] p.segments = .ok l ∨
      ∃ q, temporary? p = some q ∧ (write t p content).1.walk [] q.segments = .ok l := by
  rcases h : write t p content with ⟨t', e | u⟩
  · have hfailed := failed_of_write h
    by_cases hfiles : ∀ c, t.entryAt l = some (.file c) → t'.entryAt l = some (.file c)
    · exact Or.inl fun c => ⟨hfailed.noneNew l c, hfiles c⟩
    · obtain ⟨c, hgone⟩ := not_forall.1 hfiles
      obtain ⟨hc, hgone⟩ := Classical.not_imp.1 hgone
      obtain ⟨q, hq, hwalk, -⟩ := (hfailed.kept l c hc).resolve_left hgone
      exact Or.inr (Or.inr ⟨q, hq, hwalk⟩)
  · obtain ⟨here, beside, hwritten⟩ := written_of_write h
    obtain ⟨q, hq, hwalk, -⟩ := hwritten.temporary
    by_cases hhere : l = here
    · exact Or.inr (Or.inl (hhere ▸ (find_eq_ok.1 hwritten.self).2.1))
    by_cases hbeside : l = beside
    · exact Or.inr (Or.inr ⟨q, hq, hbeside ▸ hwalk⟩)
    · exact Or.inl (hwritten.files l hhere hbeside)

theorem temporaryName_ne_of_length {s : Path.Segment} (h : s.1.toList.length < 4)
    (name : Path.Segment) : temporaryName name ≠ s := by
  rintro rfl
  simp only [temporaryName, String.toList_ofList, List.length_append, List.length_cons] at h
  omega

theorem isIdle_temporaryName (name : Path.Segment) : (temporaryName name).isIdle = false := by
  simp only [Path.Segment.isIdle, Bool.or_eq_false_iff, decide_eq_false_iff_not]
  exact ⟨temporaryName_ne_of_length (by decide) name, temporaryName_ne_of_length (by decide) name⟩

theorem temporaryName_ne_dots (name : Path.Segment) : temporaryName name ≠ .dots :=
  temporaryName_ne_of_length (by decide) name

end Storage

namespace Locations

open Storage

theorem components_fileIn (directory : Path) (name : String) :
    (fileIn directory name).components = directory.components ++ [.name (fileName name)] :=
  Path.components_child (isIdle_fileName name) (fileName_ne_dots name) directory

theorem exists_parent_fileIn (directory : Path) (name : String) : ∃ parent,
    (fileIn directory name).parent? = some parent ∧ parent.components = directory.components := by
  obtain ⟨parent, hparent, hcomponents⟩ :=
    Path.exists_parent_of_fileName? (fileName?_fileIn directory name)
  rw [components_fileIn] at hcomponents
  exact ⟨parent, hparent, (List.append_cancel_right hcomponents).symm⟩

theorem exists_temporary_fileIn (directory : Path) (name : String) : ∃ q,
    temporary? (fileIn directory name) = some q ∧
      q.components = directory.components ++ [.name (temporaryName (fileName name))] := by
  obtain ⟨parent, hparent, hcomponents⟩ := exists_parent_fileIn directory name
  refine ⟨_, temporary?_eq_some.2 ⟨_, fileName?_fileIn directory name, rfl⟩, ?_⟩
  rw [Path.withFileName, hparent, Option.getD_some, Path.components_child
    (isIdle_temporaryName _) (temporaryName_ne_dots _), hcomponents]

end Locations

open Locations

theorem fst_saveTo (locations : Locations) (t : FileTree) (c : Configuration) :
    (c.saveTo t locations.resolve).1 =
      (Storage.write t (fileIn locations.saved c.name) c.savedText).1 := by
  have hsave : c.save .pretty t (fileIn locations.saved c.name) =
      Storage.write t (fileIn locations.saved c.name) c.savedText := rfl
  simp only [Configuration.saveTo, resolve, directory?, Option.map_some, hsave]
  split <;> rename_i h <;> rw [h]

/-- The file of a name is one component behind the directory, which is its parent.  A save, whether
it succeeds or not, creates, changes and removes no file but this one and its temporary one, which
is one component behind the directory too; both are in the directory that the path leads to. -/
theorem saveTo_inDirectory :
    (∀ (directory : Path) (name : String),
      (fileIn directory name).components = directory.components ++ [.name (fileName name)] ∧
        ∃ parent, (fileIn directory name).parent? = some parent ∧
          parent.components = directory.components) ∧
    ∀ (locations : Locations) (t : FileTree) (c : Configuration),
      (∃ q, Storage.temporary? (fileIn locations.saved c.name) = some q ∧ q.components =
        locations.saved.components ++ [.name (Storage.temporaryName (fileName c.name))]) ∧
      ∀ l, (∀ content, (c.saveTo t locations.resolve).1.entryAt l = some (.file content) ↔
          t.entryAt l = some (.file content)) ∨
        (c.saveTo t locations.resolve).1.IsChildAt locations.saved (fileName c.name) l ∨
        (c.saveTo t locations.resolve).1.IsChildAt locations.saved
          (Storage.temporaryName (fileName c.name)) l := by
  refine ⟨fun directory name => ⟨components_fileIn directory name,
    exists_parent_fileIn directory name⟩, fun locations t c =>
    ⟨exists_temporary_fileIn locations.saved c.name, fun l => ?_⟩⟩
  rw [fst_saveTo]
  rcases Storage.file_iff_or_walk t (fileIn locations.saved c.name) c.savedText l with
    hfiles | hwalk | ⟨q, hq, hwalk⟩
  · exact Or.inl hfiles
  · exact Or.inr (Or.inl (FileTree.isChildAt_of_walk_child (isIdle_fileName c.name)
      (fileName_ne_dots c.name) hwalk))
  · obtain ⟨name, hname, rfl⟩ := Storage.temporary?_eq_some.1 hq
    rw [fileName?_fileIn, Option.some.injEq] at hname
    subst hname
    exact Or.inr (Or.inr (FileTree.isChildAt_of_walk_child (Storage.isIdle_temporaryName _)
      (Storage.temporaryName_ne_dots _)
      (FileTree.walk_child_of_walk_sibling (isIdle_fileName c.name) hwalk)))

end LayerOverrides
