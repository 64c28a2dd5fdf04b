import LayerOverrides.Proofs.RankOrder
import LayerOverrides.Proofs.Siblings
import LayerOverrides.Proofs.TreeWalks
import LayerOverrides.Storage
import Mathlib.Data.List.Sort

/-!
# What a directory lists

The path of a child finds what is under its name in the directory that the path in front of it
finds (`find_child_eq_ok`); only the empty path finds nothing where its children may well be.  The
names of the document files in a directory are all different and in order
(`pairwise_documentNames`).  A directory lists the paths with these names by which the files are
found (`list_of_directory`), and the empty path lists nothing (`list_empty`).
-/

namespace LayerOverrides

/-- Elements with different keys are sorted into strictly ascending order of the keys. -/
theorem pairwise_lt_sortBy {α : Type} {key : α → String} {l : List α} (h : (l.map key).Nodup) :
    (sortBy (fun a b => !decide (key b < key a)) l).Pairwise fun a b => key a < key b := by
  have htotal : ∀ a b : α, (!decide (key b < key a)) = true ∨ (!decide (key a < key b)) = true := by
    intro a b
    simp only [Bool.not_eq_true', decide_eq_false_iff_not, String.not_lt]
    exact String.le_total (key a) (key b)
  have htrans : ∀ a b c : α, (!decide (key b < key a)) = true → (!decide (key c < key b)) = true →
      (!decide (key c < key a)) = true := by
    intro a b c hab hbc
    simp only [Bool.not_eq_true', decide_eq_false_iff_not, String.not_lt] at hab hbc ⊢
    exact String.le_trans hab hbc
  have hsorted := pairwise_sortBy htotal htrans l
  have hdistinct : (sortBy (fun a b => !decide (key b < key a)) l).Pairwise
      fun a b => key a ≠ key b :=
    List.pairwise_map.1 (((sortBy_perm _ l).map key).nodup_iff.2 h)
  refine (hsorted.and hdistinct).imp ?_
  rintro a b ⟨hle, hne⟩
  simp only [Bool.not_eq_true', decide_eq_false_iff_not, String.not_lt] at hle
  by_contra hlt
  exact hne (String.le_antisymm hle (String.not_lt.1 hlt))

namespace Path

/-- The extension is what follows the last point, if anything is in front of that point. -/
theorem splitExtension_append {stem extension : List Char} (hstem : stem ≠ [])
    (h : '.' ∉ extension) : splitExtension (stem ++ '.' :: extension) = (stem, some extension) := by
  have hreverse : (stem ++ '.' :: extension).reverse =
      extension.reverse ++ '.' :: stem.reverse := by simp
  have hpoint : ∀ c ∈ extension.reverse, decide (c ≠ '.') = true := by
    intro c hc
    rw [decide_eq_true_eq]
    rintro rfl
    exact h (List.mem_reverse.1 hc)
  unfold splitExtension
  rw [hreverse, List.dropWhile_append_of_pos hpoint, List.takeWhile_append_of_pos hpoint,
    List.dropWhile_cons_of_neg (by simp), List.takeWhile_cons_of_neg (by simp)]
  split
  · rename_i hnil
    exact absurd hnil (by simp)
  · rename_i hlast
    exact absurd (List.cons.inj hlast).2 (by simpa using hstem)
  · rename_i hcons
    rw [← (List.cons.inj hcons).2]
    simp

theorem eq_append_of_splitExtension {name stem extension : List Char}
    (h : splitExtension name = (stem, some extension)) : name = stem ++ '.' :: extension := by
  have hcut := List.takeWhile_append_dropWhile (p := fun c => decide (c ≠ '.')) (l := name.reverse)
  have hpoint := List.head?_dropWhile_not (fun c => decide (c ≠ '.')) name.reverse
  unfold splitExtension at h
  split at h
  · exact absurd (Prod.mk.inj h).2 (by simp)
  · exact absurd (Prod.mk.inj h).2 (by simp)
  · rename_i c rest hrest hdrop
    obtain ⟨rfl, hextension⟩ := Prod.mk.inj h
    obtain rfl := Option.some.inj hextension
    rw [hdrop] at hcut hpoint
    obtain rfl : c = '.' := by simpa using hpoint
    simpa using (congrArg List.reverse hcut).symm

end Path

/-- What follows the last point of the name, unless that is its first character. -/
def FileName.extension? (n : FileName) : Option String :=
  (Path.splitExtension n.1.toList).2.map String.ofList

theorem Path.extension?_child (p : Path) (n : FileName) :
    (p.child n.toSegment).extension? = n.extension? := by
  rw [extension?, fileName?_child n.isIdle_toSegment n.toSegment_ne_dots]
  rfl

namespace FileTree

variable {t t' : FileTree} {p directory : Path} {l k : Location} {n : FileName} {e : Entry}

theorem find_empty (t : FileTree) : t.find .empty = .error .notFound := rfl

theorem checkPath_eq_ok : checkPath p = .ok () ↔
    '\x00' ∉ p.text ∧ p ≠ .empty ∧ p.toText.utf8ByteSize < 4096 := by
  unfold checkPath
  split_ifs with hnul hempty hlong
  · simp [hnul]
  · simp [hempty]
  · simp only [false_iff, not_and]
    intro _ _
    omega
  · simp only [true_iff]
    exact ⟨hnul, hempty, by omega⟩

theorem checkPath_of_child {name : Path.Segment} (hne : directory ≠ .empty)
    (h : checkPath (directory.child name) = .ok ()) : checkPath directory = .ok () := by
  obtain ⟨rest, hrest⟩ := directory.prefix_text_child name
  obtain ⟨hnul, -, hlong⟩ := checkPath_eq_ok.1 h
  have hsize : (directory.child name).toText.utf8ByteSize =
      directory.toText.utf8ByteSize + (String.ofList rest).utf8ByteSize := by
    rw [Path.toText, Path.toText, ← hrest, String.ofList_append, String.utf8ByteSize_append]
  refine checkPath_eq_ok.2 ⟨fun hmem => hnul ?_, hne, by omega⟩
  rw [← hrest]
  exact List.mem_append_left _ hmem

/-- Behind a path that may be walked, only the length of a child counts. -/
theorem checkPath_child_iff (h : checkPath directory = .ok ()) (n : FileName) :
    checkPath (directory.child n.toSegment) = .ok () ↔
      (directory.child n.toSegment).toText.utf8ByteSize < 4096 := by
  obtain ⟨front, hchild, hfront⟩ := directory.child_segments
  have hsub : front ⊆ directory.segments := by
    rcases hfront with hfront | hfront <;> simp [hfront]
  have hnul : '\x00' ∉ (directory.child n.toSegment).text := by
    rw [Path.mem_text_iff (by decide), hchild]
    rintro ⟨s, hs, hmem⟩
    rcases List.mem_append.1 hs with hs | hs
    · exact (checkPath_eq_ok.1 h).1 ((Path.mem_text_iff (by decide)).2 ⟨s, hsub hs, hmem⟩)
    · obtain rfl := List.mem_singleton.1 hs
      exact n.2.2.2.2.2.1 hmem
  have hne : directory.child n.toSegment ≠ .empty := by
    intro hempty
    have hsegments := congrArg Path.segments hempty
    rw [hchild, Path.empty, List.append_eq_singleton_iff] at hsegments
    simp [n.toSegment_ne_empty] at hsegments
  rw [checkPath_eq_ok, and_iff_right hnul, and_iff_right hne]

theorem mem_names_iff : n ∈ t.names l ↔ (t.entryAt (n :: l)).isSome := by
  rw [entryAt, if_neg (by simp), List.lookup_isSome_iff, names, List.mem_filterMap]
  constructor
  · rintro ⟨⟨k, e⟩, hmem, hk⟩
    refine ⟨(k, e), hmem, ?_⟩
    split at hk
    · rename_i m l' hcons
      split at hk
      · simp_all
      · exact absurd hk (by simp)
    · exact absurd hk (by simp)
  · rintro ⟨⟨k, e⟩, hmem, hk⟩
    obtain rfl := eq_of_beq hk
    exact ⟨_, hmem, by simp⟩

theorem nodup_names (t : FileTree) (l : Location) : (t.names l).Nodup := by
  refine (List.pairwise_map.1 t.nodup).filterMap _ fun x y hne n hn m hm => ?_
  rintro rfl
  split at hn <;> split at hm <;> simp_all

/-- The path of a child leads to its name in the directory that the path in front of it leads to. -/
theorem walk_child_eq_ok : t.walk [] (directory.child n.toSegment).segments = .ok k ↔
    ∃ l, k = n :: l ∧ t.walk [] directory.segments = .ok l ∧ t.entryAt l = some .directory := by
  obtain ⟨front, hchild, hfront⟩ := directory.child_segments
  -- an empty segment behind the directory leads nowhere else
  have hfront : ∀ l, t.entryAt l = some .directory →
      (t.walk [] directory.segments = .ok l ↔ t.walk [] front = .ok l) := by
    intro l hd
    rcases hfront with hfront | hfront <;> rw [hfront]
    rw [walk_append]
    cases hk : t.walk [] front with
    | error e => simp [Except.bind]
    | ok k =>
      simp only [Except.bind, Except.ok.injEq]
      constructor
      · exact fun hw => (eq_of_walk_idle (by decide) hw).symm
      · rintro rfl
        exact walk_idle hd (by decide)
  rw [hchild, walk_append]
  constructor
  · intro hwalk
    cases hl : t.walk [] front with
    | error e => simp [hl, Except.bind] at hwalk
    | ok l =>
      rw [hl, Except.bind, walk_singleton, step_eq_ok, n.isIdle_toSegment, if_neg (by simp),
        if_neg n.toSegment_ne_dots] at hwalk
      obtain ⟨hd, m, hm, rfl⟩ := hwalk
      obtain rfl := FileName.toSegment_inj.1 hm
      exact ⟨l, rfl, (hfront l hd).2 hl, hd⟩
  · rintro ⟨l, rfl, hwalk, hd⟩
    rw [(hfront l hd).1 hwalk]
    exact walk_name hd n []

/-- A proper segment behind a path leads nowhere if no entry can have it as its name. -/
theorem exists_name_of_walk_child {s : Path.Segment} (hs : s.isIdle = false) (hdots : s ≠ .dots)
    (h : t.walk [] (directory.child s).segments = .ok k) : ∃ n : FileName, n.toSegment = s := by
  obtain ⟨front, hchild, -⟩ := directory.child_segments
  rw [hchild, walk_append] at h
  cases hl : t.walk [] front with
  | error e => simp [hl, Except.bind] at h
  | ok l =>
    rw [hl, Except.bind, walk_singleton, step_eq_ok, hs, if_neg (by simp), if_neg hdots] at h
    obtain ⟨-, n, hn, -⟩ := h
    exact ⟨n, hn⟩

theorem find_of_find_child (hne : directory ≠ .empty)
    (h : t.find (directory.child n.toSegment) = .ok (k, e)) :
    ∃ l, k = n :: l ∧ t.find directory = .ok (l, .directory) := by
  obtain ⟨hcheck, hwalk, -⟩ := find_eq_ok.1 h
  obtain ⟨l, hk, hwalk, hd⟩ := walk_child_eq_ok.1 hwalk
  exact ⟨l, hk, find_eq_ok.2 ⟨checkPath_of_child hne hcheck, hwalk, hd⟩⟩

theorem walk_child (hd : t.find directory = .ok (l, .directory)) (n : FileName) :
    t.walk [] (directory.child n.toSegment).segments = .ok (n :: l) := by
  obtain ⟨-, hwalk, hl⟩ := find_eq_ok.1 hd
  exact walk_child_eq_ok.2 ⟨l, rfl, hwalk, hl⟩

/-- What the path of a child finds is under its name in the directory. -/
theorem find_child_eq_ok (hd : t.find directory = .ok (l, .directory)) :
    t.find (directory.child n.toSegment) = .ok (k, e) ↔
      k = n :: l ∧ checkPath (directory.child n.toSegment) = .ok () ∧
        t.entryAt (n :: l) = some e := by
  rw [find_eq_ok, walk_child hd, Except.ok.injEq]
  constructor
  · rintro ⟨hcheck, rfl, he⟩
    exact ⟨rfl, hcheck, he⟩
  · rintro ⟨rfl, hcheck, he⟩
    exact ⟨hcheck, rfl, he⟩

theorem find_child_congr (hd : t.find directory = .ok (l, .directory))
    (hd' : t'.find directory = .ok (l, .directory))
    (h : t'.entryAt (n :: l) = t.entryAt (n :: l)) :
    t'.find (directory.child n.toSegment) = t.find (directory.child n.toSegment) := by
  simp only [find, walk_child hd, walk_child hd', h]

theorem isFile_iff : t.isFile p = true ↔ ∃ l c, t.find p = .ok (l, .file c) := by
  unfold isFile
  split
  · rename_i l c h
    simp [h]
  · rename_i h
    simp only [Bool.false_eq_true, false_iff, not_exists]
    exact h

/-- Whether a name in a directory is that of a document file. -/
def isDocumentName (t : FileTree) (l : Location) (n : FileName) : Bool :=
  match t.entryAt (n :: l) with
  | some (.file _) => n.extension? == some Locations.extension
  | _ => false

theorem isDocumentName_iff : t.isDocumentName l n = true ↔
    (∃ c, t.entryAt (n :: l) = some (.file c)) ∧ n.extension? = some Locations.extension := by
  unfold isDocumentName
  split
  · rename_i c h
    simp [h]
  · rename_i h
    simp only [Bool.false_eq_true, false_iff, not_and, forall_exists_index]
    exact fun c hc => absurd hc (h c)

/-- The names of the document files in a directory, in order. -/
def documentNames (t : FileTree) (l : Location) : List FileName :=
  (sortBy (fun m n => !decide (n.1 < m.1)) (t.names l)).filter (t.isDocumentName l)

theorem mem_documentNames : n ∈ t.documentNames l ↔
    (∃ c, t.entryAt (n :: l) = some (.file c)) ∧ n.extension? = some Locations.extension := by
  rw [documentNames, List.mem_filter, mem_sortBy, mem_names_iff, isDocumentName_iff]
  constructor
  · exact And.right
  · rintro ⟨⟨c, hc⟩, hextension⟩
    exact ⟨by rw [hc]; rfl, ⟨c, hc⟩, hextension⟩

theorem pairwise_documentNames (t : FileTree) (l : Location) :
    (t.documentNames l).Pairwise fun m n => m.1 < n.1 :=
  (pairwise_lt_sortBy ((t.nodup_names l).map Subtype.val_injective)).filter _

theorem nodup_documentNames (t : FileTree) (l : Location) : (t.documentNames l).Nodup :=
  (t.pairwise_documentNames l).imp fun h => by
    rintro rfl
    exact String.lt_irrefl _ h

end FileTree

namespace Storage

open FileTree

variable {t : FileTree} {directory : Path} {l : Location}

theorem list_of_directory (h : t.find directory = .ok (l, .directory)) :
    list t directory = .ok (((t.documentNames l).filter fun n =>
      t.isFile (directory.child n.toSegment)).map fun n => directory.child n.toSegment) := by
  simp only [list, pathExists, readDirectory, h, Except.isOk, Except.toBool, if_true]
  rw [List.filter_map, documentNames, List.filter_filter]
  congr 2
  refine List.filter_congr fun n _ => ?_
  simp only [Function.comp_apply, Path.extension?_child]
  -- a name whose path finds a file is that of a file
  cases hfile : t.isFile (directory.child n.toSegment) with
  | false => rfl
  | true =>
    obtain ⟨k, c, hfind⟩ := isFile_iff.1 hfile
    simp only [isDocumentName, ((find_child_eq_ok h).1 hfind).2.2]

theorem list_empty (t : FileTree) : list t .empty = .ok [] := by
  simp [list, pathExists, find_empty, Except.isOk, Except.toBool]

end Storage

end LayerOverrides
