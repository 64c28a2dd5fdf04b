import LayerOverrides.Proofs.ByteOrder
import LayerOverrides.Proofs.Listings
import LayerOverrides.Proofs.Repairs

/-!
# What a directory scan finds

The document files of a directory are loaded one after the other in the order of their names, and
no load touches another file than its own (`loadEach_children`).  What a file gives is told by its
name and the text in it alone (`mem_found_iff`).  So a scan gives one configuration for each file
with the text of a document that decodes, and takes away the files whose configurations have no
name; a second scan gives the rest and changes nothing (`loadAll_outcome`).
-/

namespace LayerOverrides

namespace FileTree

variable {t : FileTree} {l : Location}

/-- The tree without what is at these locations. -/
def eraseEach (t : FileTree) (gone : List Location) : FileTree := gone.foldl erase t

theorem without_eraseEach : ∀ (gone : List Location) (t : FileTree), (∀ k ∈ gone, k ≠ []) →
    Without t (t.eraseEach gone) gone
  | [], t, _ => .refl t
  | l :: gone, t, hgone =>
    (without_erase (hgone l List.mem_cons_self)).trans
      (without_eraseEach gone (t.erase l) fun k hk => hgone k (List.mem_cons_of_mem _ hk))

end FileTree

namespace Configuration

open FileTree

variable {t t' : FileTree} {catalog : Catalog} {policy : LoadPolicy} {directory : Path}
  {l : Location} {names : List FileName} {n : FileName} {d : Configuration}

/-- The configurations that the files of these names say, each with the name of its file. -/
def found (t : FileTree) (catalog : Catalog) (policy : LoadPolicy) (directory : Path)
    (names : List FileName) : List (FileName × Configuration) :=
  names.filterMap fun n =>
    (inFile t catalog policy (directory.child n.toSegment)).toOption.map fun d => (n, d)

/-- Where the files are whose configurations have no name. -/
def namelessAt (l : Location) (files : List (FileName × Configuration)) : List Location :=
  (files.filter fun x => x.2.isNameless).map fun x => x.1 :: l

theorem mem_found : (n, d) ∈ found t catalog policy directory names ↔
    n ∈ names ∧ inFile t catalog policy (directory.child n.toSegment) = .ok d := by
  simp only [found, List.mem_filterMap, Option.map_eq_some_iff, Prod.mk.injEq]
  constructor
  · rintro ⟨m, hm, c, hc, rfl, rfl⟩
    refine ⟨hm, ?_⟩
    cases hfile : inFile t catalog policy (directory.child m.toSegment) <;>
      simp_all [Except.toOption]
  · rintro ⟨hn, hd⟩
    exact ⟨n, hn, d, by simp [hd, Except.toOption], rfl, rfl⟩

theorem mem_namelessAt {files : List (FileName × Configuration)} :
    n :: l ∈ namelessAt l files ↔ ∃ d, (n, d) ∈ files ∧ d.isNameless = true := by
  simp only [namelessAt, List.mem_map, List.mem_filter]
  constructor
  · rintro ⟨⟨m, d⟩, hm, hcons⟩
    obtain ⟨rfl, -⟩ := List.cons.inj hcons
    exact ⟨d, hm⟩
  · rintro ⟨d, hd⟩
    exact ⟨(n, d), hd, rfl⟩

/-- A file in the directory at `l` has the extension and a text that is a document, and that says
the configuration; its path is not too long for the system to take it. -/
structure IsDocument (t : FileTree) (catalog : Catalog) (policy : LoadPolicy) (directory : Path)
    (l : Location) (n : FileName) (d : Configuration) : Prop where
  extension : n.extension? = some Locations.extension
  short : (directory.child n.toSegment).toText.utf8ByteSize < 4096
  content : ∃ s root, t.entryAt (n :: l) = some (.file (.text s)) ∧ Json.ofString? s = some root ∧
    Document.decode catalog policy (directory.child n.toSegment) root = .ok d

theorem mem_found_iff (hd : t.find directory = .ok (l, .directory)) :
    (n, d) ∈ found t catalog policy directory (t.documentNames l) ↔
      IsDocument t catalog policy directory l n d := by
  have hcheck := checkPath_child_iff (find_eq_ok.1 hd).1 n
  rw [mem_found, mem_documentNames, inFile_eq_ok]
  constructor
  · rintro ⟨⟨-, hextension⟩, k, s, root, hfind, hroot, hdecode⟩
    obtain ⟨-, hwalked, hentry⟩ := (find_child_eq_ok hd).1 hfind
    exact ⟨hextension, hcheck.1 hwalked, s, root, hentry, hroot, hdecode⟩
  · rintro ⟨hextension, hshort, s, root, hentry, hroot, hdecode⟩
    have hfind := (find_child_eq_ok hd).2 ⟨rfl, hcheck.2 hshort, hentry⟩
    exact ⟨⟨⟨_, hentry⟩, hextension⟩, _, s, root, hfind, hroot, hdecode⟩

/-- The files are found in the order of their names. -/
theorem pairwise_found {r : FileName → FileName → Prop} (h : names.Pairwise r) :
    (found t catalog policy directory names).Pairwise fun x y => r x.1 y.1 := by
  refine h.filterMap _ fun m n hmn x hx y hy => ?_
  obtain ⟨c, -, rfl⟩ := Option.map_eq_some_iff.1 hx
  obtain ⟨d, -, rfl⟩ := Option.map_eq_some_iff.1 hy
  exact hmn

theorem found_congr (h : ∀ n ∈ names,
      t'.find (directory.child n.toSegment) = t.find (directory.child n.toSegment)) :
    found t' catalog policy directory names = found t catalog policy directory names :=
  List.filterMap_congr fun n hn => by rw [inFile_congr (h n hn)]

/-- One file after the other, each load leaves the files of the others as they are. -/
theorem loadEach_children : ∀ (names : List FileName) (t : FileTree), names.Nodup →
    t.find directory = .ok (l, .directory) →
      loadEach catalog policy t (names.map fun n => directory.child n.toSegment) =
        (t.eraseEach (namelessAt l (found t catalog policy directory names)),
          (found t catalog policy directory names).map fun x => x.2.repaired)
  | [], _, _, _ => rfl
  | n :: names, t, hn, hd => by
    obtain ⟨hnot, hn⟩ := List.nodup_cons.1 hn
    have ih := loadEach_children names t hn hd
    rw [List.map_cons, loadEach]
    cases hfile : inFile t catalog policy (directory.child n.toSegment) with
    | error e =>
      have hfound : found t catalog policy directory (n :: names) =
          found t catalog policy directory names := by
        simp [found, hfile, Except.toOption]
      rw [load_of_error hfile, hfound]
      exact ih
    | ok d =>
      have hfound : found t catalog policy directory (n :: names) =
          (n, d) :: found t catalog policy directory names := by
        simp [found, hfile, Except.toOption]
      rw [hfound]
      cases hname : d.isNameless with
      | false =>
        rw [load_of_named hfile hname]
        simp only [ih, namelessAt, List.filter_cons, hname, List.map_cons, repaired_of_named hname,
          Bool.false_eq_true, if_false]
      | true =>
        obtain ⟨k, s, hfind, hload⟩ := load_of_nameless hfile hname
        obtain ⟨rfl, -, hc⟩ := (find_child_eq_ok hd).1 hfind
        have herase : Without t (t.erase (n :: l)) [n :: l] := without_erase (by simp)
        have hd' : (t.erase (n :: l)).find directory = .ok (l, .directory) :=
          find_of_keepsDirectories (herase.keeps (by simpa using ⟨_, hc⟩)) hd
        have hrest : found (t.erase (n :: l)) catalog policy directory names =
            found t catalog policy directory names := by
          refine found_congr fun m hm => find_child_congr hd hd' ?_
          rw [herase, if_neg]
          rw [List.mem_singleton, List.cons.injEq]
          rintro ⟨rfl, -⟩
          exact hnot hm
        rw [hload]
        simp only [loadEach_children names _ hn hd', hrest, namelessAt, List.filter_cons, hname,
          List.map_cons, if_true]
        rfl

theorem found_filter_isFile (names : List FileName) :
    found t catalog policy directory
        (names.filter fun n => t.isFile (directory.child n.toSegment)) =
      found t catalog policy directory names := by
  unfold found
  rw [List.filterMap_filter]
  refine List.filterMap_congr fun n _ => ?_
  split
  · rfl
  · rename_i hfile
    cases h : inFile t catalog policy (directory.child n.toSegment) with
    | error e => rfl
    | ok d =>
      obtain ⟨k, s, -, hfind, -⟩ := inFile_eq_ok.1 h
      exact absurd (isFile_iff.2 ⟨k, _, hfind⟩) hfile

theorem loadAll_of_directory (hd : t.find directory = .ok (l, .directory)) :
    loadAll t catalog policy directory =
      (t.eraseEach (namelessAt l (found t catalog policy directory (t.documentNames l))),
        .ok ((found t catalog policy directory (t.documentNames l)).map
          fun x => x.2.repaired)) := by
  simp only [loadAll, Storage.list_of_directory hd,
    loadEach_children _ t ((t.nodup_documentNames l).filter _) hd, found_filter_isFile]

theorem exists_file_of_mem_namelessAt (hd : t.find directory = .ok (l, .directory)) {k : Location}
    (hk : k ∈ namelessAt l (found t catalog policy directory names)) :
    ∃ c, t.entryAt k = some (.file c) := by
  simp only [namelessAt, List.mem_map, List.mem_filter] at hk
  obtain ⟨⟨n, d⟩, ⟨hmem, -⟩, rfl⟩ := hk
  obtain ⟨k, s, -, hfind, -⟩ := inFile_eq_ok.1 (mem_found.1 hmem).2
  exact ⟨_, ((find_child_eq_ok hd).1 hfind).2.2⟩

theorem IsDocument.unique {c : Configuration}
    (h : IsDocument t catalog policy directory l n c)
    (h' : IsDocument t catalog policy directory l n d) : c = d := by
  obtain ⟨s, root, hentry, hroot, hdecode⟩ := h.content
  obtain ⟨s', root', hentry', hroot', hdecode'⟩ := h'.content
  rw [hentry] at hentry'
  cases hentry'
  rw [hroot] at hroot'
  cases hroot'
  exact Except.ok.inj (hdecode.symm.trans hdecode')

/-- The files that are left are those whose configurations have names. -/
theorem isDocument_of_without (hd : t.find directory = .ok (l, .directory))
    (h : Without t t' (namelessAt l (found t catalog policy directory (t.documentNames l)))) :
    IsDocument t' catalog policy directory l n d ↔
      IsDocument t catalog policy directory l n d ∧ d.isNameless = false := by
  have hgone : n :: l ∈ namelessAt l (found t catalog policy directory (t.documentNames l)) ↔
      ∃ d, IsDocument t catalog policy directory l n d ∧ d.isNameless = true := by
    simp only [mem_namelessAt, mem_found_iff hd]
  have hentry := h (n :: l)
  constructor
  · rintro ⟨hextension, hshort, s, root, htext, hroot, hdecode⟩
    rw [htext] at hentry
    split at hentry
    · cases hentry
    · rename_i hnot
      have hdocument : IsDocument t catalog policy directory l n d :=
        ⟨hextension, hshort, s, root, hentry.symm, hroot, hdecode⟩
      exact ⟨hdocument, eq_false_of_ne_true fun hname => hnot (hgone.2 ⟨d, hdocument, hname⟩)⟩
  · rintro ⟨hdocument, hname⟩
    have hnot : n :: l ∉ namelessAt l (found t catalog policy directory (t.documentNames l)) := by
      intro hmem
      obtain ⟨d', hdocument', hname'⟩ := hgone.1 hmem
      rw [hdocument.unique hdocument', hname'] at hname
      cases hname
    rw [if_neg hnot] at hentry
    obtain ⟨hextension, hshort, hcontent⟩ := hdocument
    exact ⟨hextension, hshort, hentry ▸ hcontent⟩

/-- Lists of files in the order of their names are equal if they have the same members. -/
theorem eq_of_mem_iff {files files' : List (FileName × Configuration)}
    (h : files.Pairwise fun x y => x.1.1 < y.1.1) (h' : files'.Pairwise fun x y => x.1.1 < y.1.1)
    (hmem : ∀ x, x ∈ files ↔ x ∈ files') : files = files' := by
  have hirrefl : Std.Irrefl fun x y : FileName × Configuration => x.1.1 < y.1.1 :=
    ⟨fun x => String.lt_irrefl x.1.1⟩
  have hantisymm : Std.Antisymm fun x y : FileName × Configuration => x.1.1 < y.1.1 :=
    ⟨fun x y hlt hgt => absurd hgt (String.lt_asymm hlt)⟩
  exact h.eq_of_mem_iff h' hmem

/-- A scan of what is left finds the files whose configurations have names. -/
theorem found_of_without (hd : t.find directory = .ok (l, .directory))
    (hd' : t'.find directory = .ok (l, .directory))
    (h : Without t t' (namelessAt l (found t catalog policy directory (t.documentNames l)))) :
    found t' catalog policy directory (t'.documentNames l) =
      (found t catalog policy directory (t.documentNames l)).filter fun x => !x.2.isNameless := by
  refine eq_of_mem_iff (pairwise_found (t'.pairwise_documentNames l))
    ((pairwise_found (t.pairwise_documentNames l)).filter _) fun x => ?_
  rw [List.mem_filter, mem_found_iff hd', mem_found_iff hd, isDocument_of_without hd h,
    Bool.not_eq_true']

/-- A scan fails exactly where the path is that of a file, and is empty where there is nothing.  In
a directory it gives, by the bytes of the file names, one configuration for each file with the
extension whose text is a document that decodes, with a name to stand in if it has none; the files
of the nameless ones are gone, nothing else has changed, and a second scan gives the others and
changes nothing. -/
theorem loadAll_outcome (t : FileTree) (catalog : Catalog) (policy : LoadPolicy)
    (directory : Path) :
    match t.find directory with
    | .error _ => loadAll t catalog policy directory = (t, .ok [])
    | .ok (_, .file _) =>
      loadAll t catalog policy directory = (t, .error (.directoryRead directory .notADirectory))
    | .ok (l, .directory) => ∃ files : List (FileName × Configuration),
      files.Pairwise (fun x y => Text.bytes x.1.1 < Text.bytes y.1.1) ∧
      (∀ n d, (n, d) ∈ files ↔ IsDocument t catalog policy directory l n d) ∧
      ∃ t', loadAll t catalog policy directory = (t', .ok (files.map fun x => x.2.repaired)) ∧
        Without t t' (namelessAt l files) ∧
        loadAll t' catalog policy directory = (t', .ok
          ((files.filter fun x => !x.2.isNameless).map fun x => x.2.repaired)) := by
  split
  · rename_i e h
    simp [loadAll, Storage.list, pathExists, h, Except.isOk, Except.toBool, loadEach]
  · rename_i l c h
    simp [loadAll, Storage.list, pathExists, readDirectory, h, Except.isOk, Except.toBool]
  · rename_i l hd
    have hwithout := without_eraseEach
      (namelessAt l (found t catalog policy directory (t.documentNames l))) t fun k hk =>
        (exists_file_of_mem_namelessAt hd hk).elim fun c => ne_nil_of_file
    refine ⟨found t catalog policy directory (t.documentNames l),
      pairwise_found ((t.pairwise_documentNames l).imp Text.bytes_lt_bytes),
      fun n d => mem_found_iff hd, _, loadAll_of_directory hd, hwithout, ?_⟩
    have hd' := find_of_keepsDirectories
      (hwithout.keeps fun k => exists_file_of_mem_namelessAt hd) hd
    rw [loadAll_of_directory hd', found_of_without hd hd' hwithout]
    simp [namelessAt, eraseEach]

end Configuration
end LayerOverrides
