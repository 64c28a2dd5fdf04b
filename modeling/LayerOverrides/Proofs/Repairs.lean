import LayerOverrides.Proofs.Loading
import LayerOverrides.Proofs.Removal

/-!
# What a load takes away

A load fails exactly if its path leads to no file with the text of a document that decodes, and then
it changes nothing.
It takes the file away exactly if the configuration that the document says has no name, and gives
it one; in every other case the configuration is that of the document, and nothing has changed
(`load_outcome`).  A load depends on the tree by what its path finds alone (`inFile_congr`).
-/

namespace LayerOverrides

namespace Configuration

open FileTree

variable {t t' : FileTree} {catalog : Catalog} {policy : LoadPolicy} {p : Path}
  {c d : Configuration}

theorem inFile_eq_error {e : Error} : inFile t catalog policy p = .error e ↔
    Storage.Unreadable t p e ∨ ∃ l s root, t.find p = .ok (l, .file (.text s)) ∧
      Json.ofString? s = some root ∧ Document.decode catalog policy p root = .error e := by
  rw [inFile, ← Storage.read_eq_error]
  cases hread : Storage.read t p with
  | error e' =>
    simp only [Except.bind, Except.error.injEq, iff_self_or]
    rintro ⟨l, s, root, hfind, hroot, -⟩
    rw [Storage.read_eq_ok.2 ⟨l, s, hfind, hroot⟩] at hread
    cases hread
  | ok root =>
    obtain ⟨l, s, hfind, hroot⟩ := Storage.read_eq_ok.1 hread
    simp [Except.bind, hfind, hroot]

theorem inFile_congr (h : t'.find p = t.find p) :
    inFile t' catalog policy p = inFile t catalog policy p := by
  simp only [inFile, Storage.read, readText, h]

/-- A file that is read can be removed, so a document without a name is gone after its load. -/
theorem load_of_nameless (h : inFile t catalog policy p = .ok d) (hname : d.isNameless = true) :
    ∃ l s, t.find p = .ok (l, .file (.text s)) ∧
      load t catalog policy p = (t.erase l, .ok d.repaired) := by
  obtain ⟨l, s, -, hfind, -⟩ := inFile_eq_ok.1 h
  unfold inFile at h
  refine ⟨l, s, hfind, ?_⟩
  simp only [load, h, hname, if_true, Storage.discard_of_find hfind, repaired]

theorem load_of_inFile (h : inFile t catalog policy p = .ok d) :
    ∃ t', load t catalog policy p = (t', .ok d.repaired) := by
  cases hname : d.isNameless with
  | false => exact ⟨t, by rw [load_of_named h hname, repaired_of_named hname]⟩
  | true =>
    obtain ⟨l, s, -, hload⟩ := load_of_nameless h hname
    exact ⟨t.erase l, hload⟩

/-- The second tree is the first one without the file that the path leads to. -/
structure Lacks (t t' : FileTree) (p : Path) : Prop where
  removed : ∃ l c, t.find p = .ok (l, .file c) ∧ Without t t' [l]
  notFound : t'.find p = .error .notFound

theorem lacks_erase {l : Location} {content : Content} (h : t.find p = .ok (l, .file content)) :
    Lacks t (t.erase l) p := by
  have hfile := (find_eq_ok.1 h).2.2
  have herase : Without t (t.erase l) [l] := without_erase (ne_nil_of_file hfile)
  exact ⟨⟨l, content, h, herase⟩,
    find_of_mem_gone herase (by simpa using ⟨content, hfile⟩) h (List.mem_singleton_self l)⟩

/-- A load fails without a change if the path leads to no document, or to one that is refused, and
else gives a configuration with a name: that of the document, in the same tree, or the same with a
name to stand in, in the tree without the file. -/
theorem load_outcome (t : FileTree) (catalog : Catalog) (policy : LoadPolicy) (p : Path) :
    (∃ e, (Storage.Unreadable t p e ∨ ∃ l s root, t.find p = .ok (l, .file (.text s)) ∧
        Json.ofString? s = some root ∧ Document.decode catalog policy p root = .error e) ∧
      load t catalog policy p = (t, .error e)) ∨
    ∃ d t' c, Tells t catalog policy p d ∧
      load t catalog policy p = (t', .ok c) ∧ c.isNameless = false ∧
      if d.isNameless then c = { d with name := placeholderName } ∧ Lacks t t' p
      else c = d ∧ t' = t := by
  cases hfile : inFile t catalog policy p with
  | error e => exact Or.inl ⟨e, inFile_eq_error.1 hfile, load_of_error hfile⟩
  | ok d =>
    have htells := inFile_eq_ok.1 hfile
    cases hname : d.isNameless with
    | false =>
      exact Or.inr ⟨d, t, d, htells, load_of_named hfile hname, hname, by simp [hname]⟩
    | true =>
      obtain ⟨l, s, hfind, hload⟩ := load_of_nameless hfile hname
      refine Or.inr ⟨d, t.erase l, d.repaired, htells, hload, d.isNameless_repaired, ?_⟩
      rw [if_pos hname]
      exact ⟨if_pos hname, lacks_erase hfind⟩

end Configuration

end LayerOverrides
