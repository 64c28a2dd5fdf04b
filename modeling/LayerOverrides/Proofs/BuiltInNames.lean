import LayerOverrides.Proofs.ByteOrder
import LayerOverrides.Proofs.Listings
import LayerOverrides.Proofs.SavedFiles
import LayerOverrides.Proofs.SettingSets

/-!
# Built-in configurations by name and by path

The document files of a directory are listed by their stems, and a place has one path for each
name.  A document file has the name of a key's file exactly if its stem is the key
(`FileName.toSegment_eq_fileName_iff`), so the listing finds a key exactly if its path is that of a
file, and the stems are all different (`Builtins.inDirectory_outcome`).  The empty path alone is no
directory, though paths of files go on from it: nothing is listed there
(`find_inDirectory_emptyPath`).
-/

namespace LayerOverrides

/-! ## Stems of document files -/

namespace Locations

/-- A name that is not empty and has no separators of paths in it. -/
def IsPlain (name : String) : Prop := name ≠ "" ∧ '/' ∉ name.toList ∧ '\\' ∉ name.toList

instance (name : String) : Decidable (IsPlain name) := inferInstanceAs (Decidable (_ ∧ _ ∧ _))

theorem IsPlain.toList_fileName {name : String} (h : IsPlain name) :
    (fileName name).1.toList = name.toList ++ '.' :: extension.toList := by
  obtain ⟨-, hslash, hbackslash⟩ := h
  have hplain : withoutSeparators name.toList = name.toList :=
    calc withoutSeparators name.toList = name.toList.map id :=
          List.map_congr_left fun c hc => if_neg (by
            rintro (rfl | rfl)
            · exact hslash hc
            · exact hbackslash hc)
      _ = name.toList := List.map_id _
  rw [Locations.toList_fileName, hplain]
  rfl

end Locations

namespace FileName

variable {m n : FileName}

/-- What is in front of the extension. -/
def stem (n : FileName) : String := String.ofList (Path.splitExtension n.1.toList).1

theorem toList_of_extension? (h : n.extension? = some Locations.extension) :
    n.1.toList = n.stem.toList ++ '.' :: Locations.extension.toList := by
  obtain ⟨extension, hextension, heq⟩ := Option.map_eq_some_iff.1 h
  rw [stem, String.toList_ofList, ← heq, String.toList_ofList]
  exact Path.eq_append_of_splitExtension (Prod.ext rfl hextension)

theorem stem_inj (hm : m.extension? = some Locations.extension)
    (hn : n.extension? = some Locations.extension) : m.stem = n.stem ↔ m = n := by
  refine ⟨fun h => Subtype.ext (String.toList_inj.1 ?_), fun h => h ▸ rfl⟩
  rw [toList_of_extension? hm, toList_of_extension? hn, h]

/-- The file of a plain name is the document file that has the name as its stem. -/
theorem toSegment_eq_fileName_iff {name : String} (h : Locations.IsPlain name) :
    n.toSegment = Locations.fileName name ↔
      n.extension? = some Locations.extension ∧ n.stem = name := by
  constructor
  · intro hn
    have hsplit : Path.splitExtension n.1.toList =
        (name.toList, some Locations.extension.toList) := by
      rw [← Path.splitExtension_append (by simpa using h.1) (by decide), ← h.toList_fileName, ← hn]
      rfl
    simp [extension?, stem, hsplit]
  · rintro ⟨hextension, rfl⟩
    refine Subtype.ext (String.toList_inj.1 ?_)
    rw [h.toList_fileName, ← toList_of_extension? hextension]
    rfl

end FileName

theorem Path.stem?_child (p : Path) (n : FileName) :
    (p.child n.toSegment).stem? = some n.stem := by
  rw [stem?, fileName?_child n.isIdle_toSegment n.toSegment_ne_dots]
  rfl

/-! ## Listed names and resolved paths -/

namespace Builtins

open FileTree Locations

variable {t : FileTree} {directory : Path} {l : Location}

/-- The built-in configuration in a document file of a directory. -/
def ofDocument (directory : Path) (n : FileName) : Builtin :=
  ⟨n.stem, directory.child n.toSegment⟩

theorem list_of_directory (h : t.find directory = .ok (l, .directory)) :
    (inDirectory directory).list t = .ok (sortBy (fun a b => !decide (b.name < a.name))
      (((t.documentNames l).filter fun n => t.isFile (directory.child n.toSegment)).map
        (ofDocument directory))) := by
  simp only [inDirectory, Storage.list_of_directory h, List.filterMap_map, Function.comp_def,
    Path.stem?_child, Option.map_some]
  rw [← List.filterMap_eq_map]
  rfl

theorem list_of_error {e : OsError} (h : t.find directory = .error e) :
    (inDirectory directory).list t = .ok [] := by
  simp [inDirectory, Storage.list, pathExists, h, Except.isOk, Except.toBool, sortBy]

theorem nodup_stems {names : List FileName} (hn : names.Nodup)
    (h : ∀ n ∈ names, n.extension? = some extension) :
    ((names.map (ofDocument directory)).map Builtin.name).Nodup := by
  rw [List.map_map]
  exact hn.map_on fun m hm n hn hstem => (FileName.stem_inj (h m hm) (h n hn)).1 hstem

/-- Where no file is in the place of the directory, its document files are listed by name, and
nothing else is; only the empty path is passed over. -/
theorem exists_entries (h : t.isFile directory = false) : ∃ entries,
    (inDirectory directory).list t = .ok entries ∧
      entries.Pairwise (fun a b => a.name < b.name) ∧
      ∀ b, b ∈ entries ↔ directory ≠ .empty ∧ ∃ n : FileName, n.extension? = some extension ∧
        t.isFile (directory.child n.toSegment) = true ∧ ofDocument directory n = b := by
  cases hd : t.find directory with
  | error e =>
    refine ⟨[], list_of_error hd, .nil, fun b => ?_⟩
    simp only [List.not_mem_nil, false_iff, not_and, not_exists]
    intro hne n _ hfile _
    obtain ⟨k, c, hfind⟩ := isFile_iff.1 hfile
    obtain ⟨l, -, hd'⟩ := find_of_find_child hne hfind
    rw [hd] at hd'
    exact absurd hd' (by simp)
  | ok x =>
    obtain ⟨l, _ | c⟩ := x
    · have hne : directory ≠ .empty := by
        rintro rfl
        exact absurd (hd.symm.trans t.find_empty) (by simp)
      have hextension : ∀ n ∈ (t.documentNames l).filter fun n =>
          t.isFile (directory.child n.toSegment), n.extension? = some extension :=
        fun n hn => (mem_documentNames.1 (List.mem_of_mem_filter hn)).2
      refine ⟨_, list_of_directory hd,
        pairwise_lt_sortBy (nodup_stems ((t.nodup_documentNames l).filter _) hextension),
        fun b => ?_⟩
      rw [mem_sortBy, List.mem_map, and_iff_right hne]
      refine exists_congr fun n => ?_
      rw [List.mem_filter, mem_documentNames]
      constructor
      · rintro ⟨⟨⟨-, hn⟩, hfile⟩, hb⟩
        exact ⟨hn, hfile, hb⟩
      · rintro ⟨hn, hfile, hb⟩
        obtain ⟨k, c, hfind⟩ := isFile_iff.1 hfile
        exact ⟨⟨⟨⟨c, ((find_child_eq_ok hd).1 hfind).2.2⟩, hn⟩, hfile⟩, hb⟩
    · rw [isFile_iff.2 ⟨l, c, hd⟩] at h
      exact absurd h (by simp)

/-- The path of a file is that of a document file with the name as its stem. -/
theorem exists_document {name : String} (h : IsPlain name)
    (hfile : t.isFile (fileIn directory name) = true) : ∃ n : FileName,
      n.extension? = some extension ∧ t.isFile (directory.child n.toSegment) = true ∧
        ofDocument directory n = ⟨name, fileIn directory name⟩ := by
  obtain ⟨k, c, hfind⟩ := isFile_iff.1 hfile
  obtain ⟨n, hn⟩ := exists_name_of_walk_child (isIdle_fileName name) (fileName_ne_dots name)
    (find_eq_ok.1 hfind).2.1
  obtain ⟨hextension, hstem⟩ := (FileName.toSegment_eq_fileName_iff h).1 hn
  rw [fileIn, ← hn] at hfile
  exact ⟨n, hextension, hfile, by rw [ofDocument, hn, hstem, fileIn]⟩

/-- The built-in configurations of a directory are in ascending order of their names, by the bytes
of these, so that no two have one name; and a plain name is found among them exactly if its path
is that of a file, which is then the path of what is found.  Only the empty path is passed over,
where nothing is found. -/
theorem inDirectory_outcome (locations : Locations) (directory : Path) (t : FileTree)
    (name : String) (hplace : locations.builtIn = some directory)
    (hdirectory : t.isFile directory = false) (hname : IsPlain name) :
    ∃ p entries, locations.resolve .builtIn name = some p ∧
      (inDirectory directory).list t = .ok entries ∧
      entries.Pairwise (fun a b => Text.bytes a.name < Text.bytes b.name) ∧
      (inDirectory directory).find t name =
        .ok (if directory ≠ .empty ∧ t.isFile p = true then some ⟨name, p⟩ else none) := by
  obtain ⟨entries, hlist, hsorted, hmem⟩ := exists_entries hdirectory
  refine ⟨fileIn directory name, entries, by simp [resolve, directory?, hplace], hlist,
    hsorted.imp Text.bytes_lt_bytes, ?_⟩
  have hn : (entries.map Builtin.name).Nodup := by
    refine List.pairwise_map.2 (hsorted.imp fun {a b} hlt heq => ?_)
    rw [heq] at hlt
    exact String.lt_irrefl _ hlt
  simp only [find, hlist, Except.ok.injEq]
  split_ifs with hfile
  · exact (find?_key_eq_some_iff hn).2
      ⟨(hmem _).2 ⟨hfile.1, exists_document hname hfile.2⟩, rfl⟩
  · rw [List.find?_eq_none]
    intro b hb hkey
    obtain ⟨hne, n, hextension, hchild, rfl⟩ := (hmem b).1 hb
    have hsegment := (FileName.toSegment_eq_fileName_iff hname).2
      ⟨hextension, by simpa [ofDocument] using hkey⟩
    rw [hsegment] at hchild
    exact hfile ⟨hne, hchild⟩

end Builtins

namespace Samples

/-- A directory with the files of two names, of which one has a point in it. -/
def shelf : FileTree :=
  (FileTree.empty.putFile (.ofString "b/a.b.json") (.text "")).putFile (.ofString "b/a.json")
    (.text "")

def shelved : Locations := ⟨.ofString "d", none, some (.ofString "b")⟩

/-- A file that is in no directory but the root. -/
def loose : FileTree := FileTree.empty.putFile (.ofString "N.json") (.text "")

/-- Locations with the empty path for built-in configurations. -/
def unshelved : Locations := ⟨.ofString "d", none, some .empty⟩

end Samples

open Samples

theorem inDirectory_outcome_pointed :
    shelved.builtIn = some (.ofString "b") ∧ shelf.isFile (.ofString "b") = false ∧
      Locations.IsPlain "a.b" ∧ ∃ entries,
        (Builtins.inDirectory (.ofString "b")).list shelf = .ok entries ∧
        entries.Pairwise (fun a b => Text.bytes a.name < Text.bytes b.name) ∧
        (Builtins.inDirectory (.ofString "b")).find shelf "a.b" =
          .ok (some ⟨"a.b", .ofString "b/a.b.json"⟩) := by
  have hdirectory : shelf.isFile (.ofString "b") = false := by decide +kernel
  have hname : Locations.IsPlain "a.b" := by decide
  have hfile : (Path.ofString "b") ≠ .empty ∧
      shelf.isFile (Locations.fileIn (.ofString "b") "a.b") = true := by decide +kernel
  have hpath : Locations.fileIn (.ofString "b") "a.b" = .ofString "b/a.b.json" := by decide +kernel
  obtain ⟨p, entries, hp, hlist, hsorted, hfind⟩ :=
    Builtins.inDirectory_outcome shelved (.ofString "b") shelf "a.b" rfl hdirectory hname
  obtain rfl : Locations.fileIn (.ofString "b") "a.b" = p := Option.some.inj hp
  rw [if_pos hfile, hpath] at hfind
  exact ⟨rfl, hdirectory, hname, entries, hlist, hsorted, hfind⟩

/-- The path of the name is that of a file, and the name is not found. -/
theorem find_inDirectory_emptyPath :
    unshelved.builtIn = some .empty ∧ loose.pathExists .empty = false ∧ Locations.IsPlain "N" ∧
      unshelved.resolve .builtIn "N" = some (.ofString "N.json") ∧
      loose.isFile (.ofString "N.json") = true ∧
      (Builtins.inDirectory .empty).find loose "N" = .ok none := by
  refine ⟨rfl, ?_, ?_, ?_, ?_, ?_⟩ <;> decide +kernel

end LayerOverrides
