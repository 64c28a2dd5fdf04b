import LayerOverrides.Proofs.AtomicWrite

/-!
# What a write does to all other files

A write that succeeds has put its whole content in place.  One that fails has taken its temporary
file away again, whether the system refused to write on when a part was in it or the file could not
take its place (`replace_error`); only one that was never opened is not there to be taken away
(`discard_of_openFile_error`).  Either way the other files are as they were, and the only new
directories are those that the paths in front of the written one lead to (`write_outcome`).  After a
write that fails, its path finds what it found before, or else it found nothing and there are new
directories on its way: they can even be what it finds now (`find_ne_after_failure`).
-/

namespace LayerOverrides

open FileTree

namespace Storage

variable {t t₁ t' : FileTree} {p q : Path} {content : String}

theorem temporaryName_ne (s : Path.Segment) : temporaryName s ≠ s := by
  intro h
  have hlength := congrArg (fun s : Path.Segment => s.1.toList.length) h
  simp [temporaryName] at hlength

/-- In a directory a file is gone that came and went, and nothing else has changed. -/
structure Drops (t t' : FileTree) (l : Location) (m : FileName) : Prop where
  file_ne : t.entryAt (m :: l) ≠ some .directory
  entryAt_eq : ∀ l', t'.entryAt l' = if l' = m :: l then none else t.entryAt l'

theorem Drops.directory_iff {l : Location} {m : FileName} (h : Drops t t' l m) (l' : Location) :
    t'.entryAt l' = some .directory ↔ t.entryAt l' = some .directory := by
  rw [h.entryAt_eq]
  split
  · rename_i hl
    simp [hl, h.file_ne]
  · rfl

/-! ## Writes that fail -/

theorem discard_of_openFile_error {e : OsError} (h : t.openFile q = .error e) :
    discard t q = t := by
  unfold discard removeFile
  unfold openFile at h
  split at h
  · rename_i ht
    simp only [ht]
  · rename_i ht
    simp only [ht]
  · rename_i l n ht
    rcases hentry : t.entryAt (n :: l) with _ | _ | _ <;> simp only [ht, hentry, if_true]
  · rename_i l n ht
    split at h
    · rename_i hd
      simp only [ht, hd]
    · exact absurd h (by simp)

theorem discard_insert {k : Location} {m : FileName} (ht : t.target q = .ok (.named k m false))
    (hm : t.entryAt (m :: k) ≠ some .directory) (content : Content) :
    Drops t (discard (t.insert (m :: k) (.file content)) q) k m := by
  have hentry : (t.insert (m :: k) (.file content)).entryAt (m :: k) = some (.file content) := by
    rw [entryAt_insert t (by simp), if_pos rfl]
  have ht' := target_of_keepsDirectories (keeps_insert_file hm content) ht
  refine ⟨hm, fun l' => ?_⟩
  simp only [discard, removeFile, ht', hentry, Bool.false_eq_true, if_false]
  rw [entryAt_erase _ _ _ (by simp), entryAt_insert t (by simp)]
  by_cases hl : l' = m :: k
  · simp only [if_pos hl]
  · simp only [if_neg hl]

theorem replace_error {e : Error} (h : replace t q p content = (t', .error e)) :
    t' = t ∨ ∃ k m, t.target q = .ok (.named k m false) ∧ Drops t t' k m := by
  unfold replace at h
  split at h
  · rename_i t₂ e' hwrite
    obtain ⟨rfl, -⟩ := Prod.mk.inj h
    rcases writeFile_error hwrite with ⟨hopen, rfl⟩ | ⟨k, m, part, ht, hm, rfl⟩
    · exact Or.inl (discard_of_openFile_error hopen)
    · exact Or.inr ⟨k, m, ht, discard_insert ht hm part⟩
  rename_i t₂ hwrite
  split at h
  · obtain ⟨k, m, ht, hm, rfl, -⟩ := writeFile_ok hwrite
    obtain ⟨rfl, -⟩ := Prod.mk.inj h
    exact Or.inr ⟨k, m, ht, discard_insert ht hm _⟩
  · exact absurd h (by simp)

theorem write_error {e : Error} (h : write t p content = (t', .error e)) :
    ∃ t₁, AddsDirectories p.above t t₁ ∧ (t' = t₁ ∨ ∃ q k m, temporary? p = some q ∧
      t₁.target q = .ok (.named k m false) ∧ Drops t₁ t' k m) := by
  have hadds := prepare_adds t p
  unfold write at h
  split at h
  · rename_i t₁ _ hprepare
    rw [hprepare] at hadds
    exact ⟨t₁, hadds, Or.inl (Prod.mk.inj h).1.symm⟩
  rename_i t₁ hprepare
  rw [hprepare] at hadds
  split at h
  · exact ⟨t₁, hadds, Or.inl (Prod.mk.inj h).1.symm⟩
  rename_i name hname
  rcases replace_error h with rfl | ⟨k, m, ht, hdrops⟩
  · exact ⟨t', hadds, Or.inl rfl⟩
  · exact ⟨t₁, hadds, Or.inr ⟨_, k, m, temporary?_eq_some.2 ⟨name, hname, rfl⟩, ht, hdrops⟩⟩

/-- The file that went is the temporary one, so the path finds what it found. -/
theorem find_of_drops {k : Location} {m : FileName} (hq : temporary? p = some q)
    (ht : t.target q = .ok (.named k m false)) (h : Drops t t' k m) : t'.find p = t.find p := by
  obtain ⟨name, hname, rfl⟩ := temporary?_eq_some.1 hq
  obtain ⟨hs, hdots, front, idle, hp, hidle⟩ := Path.exists_front_of_fileName? hname
  obtain ⟨kept, skipped, rfl, hskipped, hsibling⟩ := Path.exists_sibling hp hs hidle
  obtain ⟨-, front, hfront, hwalk, hd⟩ := exists_front_of_target ht
  rw [hsibling] at hfront
  obtain ⟨rfl, hlast⟩ := List.append_inj' hfront rfl
  have hm : temporaryName name = m.toSegment := List.singleton_inj.1 hlast
  -- what the sibling leaves out in front of the name does not lead out of its directory
  have hwalk' : t.walk [] (kept ++ skipped) = .ok k := by
    rw [walk_append, hwalk]
    exact walk_idle hd hskipped
  refine find_eq_of_front hp hs hdots hidle hwalk' hd (fun l => (h.directory_iff l).2) ?_
  intro n hn
  rw [h.entryAt_eq, if_neg]
  intro hl
  rw [(List.cons.inj hl).1, ← hm] at hn
  exact temporaryName_ne name hn

/-- The path of the temporary file leads to where no file is. -/
theorem find_of_gone {k : Location} {m : FileName} (ht : t.target q = .ok (.named k m false))
    (h : KeepsDirectories t t') (hnone : t'.entryAt (m :: k) = none) :
    t'.walk [] q.segments = .ok (m :: k) ∧ t'.find q = .error .notFound := by
  have hwalk := walk_of_keepsDirectories h _ (walk_of_target ht)
  refine ⟨hwalk, ?_⟩
  simp only [find, (target_eq_named.1 ht).1, hwalk, hnone]

/-! ## Both outcomes -/

/-- No directory is gone, and the paths in front of `p` lead to the new ones. -/
structure KeepsAround (t t' : FileTree) (p : Path) : Prop where
  keeps : KeepsDirectories t t'
  gained : ∀ l, t'.entryAt l = some .directory → t.entryAt l = some .directory ∨
    t.entryAt l = none ∧ ∃ q ∈ p.above, t'.find q = .ok (l, .directory)

/-- All of the content could be written: the path leads to `here` and finds it there, that of the
temporary file leads to `beside` and finds nothing, and all other files are as they were. -/
structure Written (t t' : FileTree) (p : Path) (content : String) (here beside : Location) :
    Prop where
  fits : t.Fits (.text content)
  self : t'.find p = .ok (here, .file (.text content))
  temporary : ∃ q, temporary? p = some q ∧
    t'.walk [] q.segments = .ok beside ∧ t'.find q = .error .notFound
  files : ∀ l, l ≠ here → l ≠ beside → ∀ c,
    t'.entryAt l = some (.file c) ↔ t.entryAt l = some (.file c)
  around : KeepsAround t t' p

/-- The path finds what it found, unless that was nothing and there are new directories; no file
is new, and none is gone, unless the path of the temporary file leads to where it was. -/
structure Failed (t t' : FileTree) (p : Path) : Prop where
  self : t'.find p = t.find p ∨ (∃ e, t.find p = .error e) ∧
    ∃ l, t.entryAt l = none ∧ t'.entryAt l = some .directory
  kept : ∀ l c, t.entryAt l = some (.file c) → t'.entryAt l = some (.file c) ∨
    ∃ q, temporary? p = some q ∧ t'.walk [] q.segments = .ok l ∧ t'.find q = .error .notFound
  noneNew : ∀ l c, t'.entryAt l = some (.file c) → t.entryAt l = some (.file c)
  around : KeepsAround t t' p

theorem keepsAround_of_adds (hadds : AddsDirectories p.above t t₁)
    (h : ∀ l, t'.entryAt l = some .directory ↔ t₁.entryAt l = some .directory) :
    KeepsAround t t' p where
  keeps l hd := (h l).2 (hadds.gains.keeps l hd)
  gained l hd := by
    rcases hadds l with hl | ⟨hl, q, hmem, hq⟩
    · exact Or.inl (hl ▸ (h l).1 hd)
    · exact Or.inr ⟨hl, q, hmem, find_of_keepsDirectories (fun l => (h l).2) hq⟩

/-- A path that found something finds it among more directories too. -/
theorem find_of_adds {paths : List Path} (hadds : AddsDirectories paths t t₁) :
    t₁.find p = t.find p ∨ (∃ e, t.find p = .error e) ∧
      ∃ l, t.entryAt l = none ∧ t₁.entryAt l = some .directory := by
  by_cases hnew : ∃ l, t.entryAt l = none ∧ t₁.entryAt l = some .directory
  · cases hp : t.find p with
    | error e => exact Or.inr ⟨⟨e, rfl⟩, hnew⟩
    | ok x => exact Or.inl (hadds.find hp)
  · refine Or.inl (find_congr (fun l => ?_) p)
    rcases hadds.gains l with hl | hl
    · exact hl
    · exact absurd ⟨l, hl⟩ hnew

theorem written_of_write (h : write t p content = (t', .ok ())) :
    ∃ here beside, Written t t' p content here beside := by
  obtain ⟨t₁, q, l, n, m, hadds, hlimit, hq, htarget, htemporary, hreplaces⟩ :=
    replaces_of_write h
  have hne : m :: l ≠ n :: l := fun hl => temporaryName_ne n.toSegment
    (hreplaces.temporary_eq ▸ congrArg FileName.toSegment (List.cons.inj hl).1)
  have hself : t'.entryAt (n :: l) = some (.file (.text content)) := by
    rw [hreplaces.entryAt_eq, if_pos rfl]
  have hnone : t'.entryAt (m :: l) = none := by
    rw [hreplaces.entryAt_eq, if_neg hne, if_pos rfl]
  have hfits : t.Fits (.text content) := by
    have hfits := hreplaces.fits
    unfold Fits at hfits ⊢
    rwa [hlimit] at hfits
  refine ⟨n :: l, m :: l, hfits, find_of_target hreplaces.keeps htarget hself,
    ⟨q, hq, find_of_gone htemporary hreplaces.keeps hnone⟩, fun l' hn hm c => ?_,
    keepsAround_of_adds hadds hreplaces.directory_iff⟩
  rw [hreplaces.entryAt_eq, if_neg hn, if_neg hm, hadds.file_iff]

theorem failed_of_write {e : Error} (h : write t p content = (t', .error e)) : Failed t t' p := by
  obtain ⟨t₁, hadds, rfl | ⟨q, k, m, hq, htemporary, hdrops⟩⟩ := write_error h
  · exact ⟨find_of_adds hadds, fun l c hc => Or.inl (hadds.file_iff.2 hc),
      fun l c hc => hadds.file_iff.1 hc, keepsAround_of_adds hadds fun _ => Iff.rfl⟩
  have hnone : t'.entryAt (m :: k) = none := by rw [hdrops.entryAt_eq, if_pos rfl]
  have hkeeps : KeepsDirectories t₁ t' := fun l => (hdrops.directory_iff l).2
  refine ⟨?_, fun l c hc => ?_, fun l c hc => ?_, keepsAround_of_adds hadds hdrops.directory_iff⟩
  -- what the path finds has changed by new directories alone
  · rw [find_of_drops hq htemporary hdrops]
    simp only [hdrops.directory_iff]
    exact find_of_adds hadds
  · by_cases hl : l = m :: k
    · exact Or.inr ⟨q, hq, hl ▸ find_of_gone htemporary hkeeps hnone⟩
    · rw [hdrops.entryAt_eq, if_neg hl]
      exact Or.inl (hadds.file_iff.2 hc)
  · rw [hdrops.entryAt_eq] at hc
    split at hc
    · exact absurd hc (by simp)
    · exact hadds.file_iff.1 hc

/-- A write that succeeds changes its file alone and leaves no temporary one; a write that fails
changes no file, but may take away one that was in the place of the temporary one. -/
theorem write_outcome (t : FileTree) (p : Path) (content : String) :
    (∀ t', write t p content = (t', .ok ()) →
      ∃ here beside, Written t t' p content here beside) ∧
    ∀ t' e, write t p content = (t', .error e) → Failed t t' p :=
  ⟨fun _ => written_of_write, fun _ _ => failed_of_write⟩

end Storage

namespace Samples

def stored : Path := .ofString "d/a"

def besideStored : Path := .ofString "d/a.tmp"

/-- A path into a directory, out of it and back to it. -/
def looped : Path := .ofString "a/../a"

/-- What a write makes of an empty tree. -/
def afterWrite (p : Path) (content : String) : FileTree := (Storage.write .empty p content).1

/-- A tree with one file on a disk that has room for one more byte. -/
def full : FileTree := { afterWrite stored "1" with limit := some ⟨1, .noSpace⟩ }

def afterFull : FileTree := (Storage.write full stored "23").1

theorem write_stored : Storage.write .empty stored "1" = (afterWrite stored "1", .ok ()) :=
  Prod.ext rfl (by decide +kernel)

theorem write_full : Storage.write full stored "23" =
    (afterFull, .error (.fileWrite besideStored .noSpace)) :=
  Prod.ext rfl (by decide +kernel)

theorem write_looped : Storage.write .empty looped "1" =
    (afterWrite looped "1", .error (.fileWrite looped .isADirectory)) :=
  Prod.ext rfl (by decide +kernel)

end Samples

open Samples

/-- A write that succeeds, one that stops when a part is written, and one whose file cannot take its
place. -/
theorem write_outcome_stored_full_looped :
    Storage.write .empty stored "1" = (afterWrite stored "1", .ok ()) ∧
      (∃ here beside, Storage.Written .empty (afterWrite stored "1") stored "1" here beside) ∧
      Storage.write full stored "23" =
        (afterFull, .error (.fileWrite besideStored .noSpace)) ∧
      Storage.Failed full afterFull stored ∧
      Storage.write .empty looped "1" =
        (afterWrite looped "1", .error (.fileWrite looped .isADirectory)) ∧
      Storage.Failed .empty (afterWrite looped "1") looped :=
  ⟨write_stored, (Storage.write_outcome .empty stored "1").1 _ write_stored, write_full,
    (Storage.write_outcome full stored "23").2 _ _ write_full, write_looped,
    (Storage.write_outcome .empty looped "1").2 _ _ write_looped⟩

/-- Nothing was at the path; the write makes a directory in front of it, which then is in its
place. -/
theorem find_ne_after_failure :
    Storage.write .empty looped "1" =
        (afterWrite looped "1", .error (.fileWrite looped .isADirectory)) ∧
      FileTree.empty.find looped = .error .notFound ∧
      (afterWrite looped "1").isDirectory looped = true ∧
      (afterWrite looped "1").find looped ≠ FileTree.empty.find looped := by
  have hbefore : FileTree.empty.find looped = .error .notFound := by decide +kernel
  have hafter : (afterWrite looped "1").isDirectory looped = true := by decide +kernel
  refine ⟨write_looped, hbefore, hafter, fun h => ?_⟩
  rw [FileTree.isDirectory, h, hbefore] at hafter
  exact absurd hafter (by simp)

end LayerOverrides
