import LayerOverrides.Configuration.Files
import LayerOverrides.Proofs.Migration

/-!
# What loading and resetting give

A document is read from a path exactly if there is a file whose text is that document
(`read_eq_ok`), and every other state of the tree has an error of its own (`read_eq_error`).  A file
that loads holds a document that decodes, and what it is loaded as differs from what it is decoded
as in nothing but a name that is none (`exists_inFile_of_load`).  A reset loads a file that the
look-ups for the name tell, or clears the configuration (`reset_eq`).  Every document that is
decoded has one entry for each of its layers, and they are in rank order
(`exists_entries_of_decode`, `order_of_decode`).
-/

namespace LayerOverrides

namespace Storage

variable {t : FileTree} {p : Path}

/-- Why there is no document at a path: the path leads to no entry, to a directory, or to a file
with no text in it, or with a text that is no document. -/
inductive Unreadable (t : FileTree) (p : Path) : Error → Prop where
  | noEntry {cause : OsError} (h : t.find p = .error cause) : Unreadable t p (.fileRead p cause)
  | directory {l : Location} (h : t.find p = .ok (l, .directory)) :
    Unreadable t p (.fileRead p .isADirectory)
  | noText {l : Location} {bytes : List UInt8} (h : t.find p = .ok (l, .file (.binary bytes))) :
    Unreadable t p (.fileRead p .notUtf8)
  | noDocument {l : Location} {s : String} (h : t.find p = .ok (l, .file (.text s)))
    (hs : Json.ofString? s = none) : Unreadable t p .parse

theorem read_eq_ok {root : Json} : read t p = .ok root ↔
    ∃ l s, t.find p = .ok (l, .file (.text s)) ∧ Json.ofString? s = some root := by
  rcases hfind : t.find p with cause | ⟨l, _ | s | bytes⟩
  · simp [read, FileTree.readText, hfind]
  · simp [read, FileTree.readText, hfind]
  · cases hs : Json.ofString? s <;> simp [read, FileTree.readText, hfind, hs]
  · simp [read, FileTree.readText, hfind]

theorem read_eq_error {e : Error} : read t p = .error e ↔ Unreadable t p e := by
  constructor
  · intro h
    rcases hfind : t.find p with cause | ⟨l, _ | s | bytes⟩ <;>
      simp only [read, FileTree.readText, hfind] at h
    · cases h
      exact .noEntry hfind
    · cases h
      exact .directory hfind
    · cases hs : Json.ofString? s <;> rw [hs] at h <;> cases h
      exact .noDocument hfind hs
    · cases h
      exact .noText hfind
  · intro h
    cases h with
    | noEntry h => simp only [read, FileTree.readText, h]
    | directory h => simp only [read, FileTree.readText, h]
    | noText h => simp only [read, FileTree.readText, h]
    | noDocument h hs => simp only [read, FileTree.readText, h, hs]

end Storage

namespace Document

theorem exists_entries_of_decode {catalog : Catalog} {policy : LoadPolicy} {path : Path}
    {root : Json} (hs : root.sorted = true) {c : Configuration}
    (h : decode catalog policy path root = .ok c) :
    ∃ entries, c.entries = ordered entries ∧ (entries.map LayerEntry.layer).Nodup := by
  by_cases hg : Generation.ofVersion (version policy root) = .bare
  · obtain ⟨body, hbody, rfl⟩ := exists_bare_of_decode hg h
    have hoptions := body.sortedMembers_membersAt (sortedMembers_of_body? hs hbody) "layer_options"
    exact ⟨_, rfl, Bare.nodup_entries hoptions⟩
  · obtain ⟨typed, body, rfl⟩ := exists_wrapped_of_decode hg h
    exact ⟨_, rfl, Wrapped.nodup_entries typed catalog body⟩

end Document

/-- The file that is loaded, if one is. -/
def ResetSource.path? : ResetSource → Option Path
  | .builtIn p => some p
  | .saved p => some p
  | .defaults => none

namespace Configuration

variable {t t' : FileTree} {catalog : Catalog} {policy : LoadPolicy} {p : Path}
  {c d : Configuration}

/-- The configuration that the document in a file says. -/
def inFile (t : FileTree) (catalog : Catalog) (policy : LoadPolicy) (p : Path) :
    Except Error Configuration :=
  (Storage.read t p).bind (Document.decode catalog policy p)

/-- The path leads to a file whose text is a document, and that says the configuration. -/
def Tells (t : FileTree) (catalog : Catalog) (policy : LoadPolicy) (p : Path)
    (d : Configuration) : Prop :=
  ∃ l s root, t.find p = .ok (l, .file (.text s)) ∧ Json.ofString? s = some root ∧
    Document.decode catalog policy p root = .ok d

/-- The configuration with a name to stand in, if it has none. -/
def repaired (d : Configuration) : Configuration :=
  if d.isNameless then { d with name := placeholderName } else d

theorem inFile_eq_ok : inFile t catalog policy p = .ok d ↔ Tells t catalog policy p d := by
  unfold inFile Tells
  constructor
  · intro h
    cases hread : Storage.read t p with
    | error e =>
      rw [hread] at h
      cases h
    | ok root =>
      obtain ⟨l, s, hfind, hroot⟩ := Storage.read_eq_ok.1 hread
      rw [hread] at h
      exact ⟨l, s, root, hfind, hroot, h⟩
  · rintro ⟨l, s, root, hfind, hroot, hdecode⟩
    rw [Storage.read_eq_ok.2 ⟨l, s, hfind, hroot⟩]
    exact hdecode

theorem entries_repaired (d : Configuration) : d.repaired.entries = d.entries := by
  unfold repaired
  split <;> rfl

theorem repaired_of_named (h : d.isNameless = false) : d.repaired = d := if_neg (by simp [h])

theorem isNameless_repaired (d : Configuration) : d.repaired.isNameless = false := by
  unfold repaired
  split
  · have h : Text.isBlankText placeholderName.toList = false := by decide
    exact h
  · rename_i h
    simpa using h

theorem load_of_error {e : Error} (h : inFile t catalog policy p = .error e) :
    load t catalog policy p = (t, .error e) := by
  unfold inFile at h
  simp only [load, h]

theorem load_of_named (h : inFile t catalog policy p = .ok d) (hname : d.isNameless = false) :
    load t catalog policy p = (t, .ok d) := by
  unfold inFile at h
  simp [load, h, hname]

theorem exists_inFile_of_load (h : load t catalog policy p = (t', .ok c)) :
    ∃ d, inFile t catalog policy p = .ok d ∧ c = d.repaired := by
  cases hfile : inFile t catalog policy p with
  | error e =>
    rw [load_of_error hfile] at h
    exact absurd h (by simp)
  | ok d =>
    refine ⟨d, rfl, ?_⟩
    unfold inFile at hfile
    simp only [load, hfile] at h
    unfold repaired
    split_ifs at h ⊢ <;> exact (Except.ok.inj (Prod.mk.inj h).2).symm

theorem exists_entries_of_load (h : load t catalog policy p = (t', .ok c)) :
    ∃ entries, c.entries = ordered entries ∧ (entries.map LayerEntry.layer).Nodup := by
  obtain ⟨d, hfile, rfl⟩ := exists_inFile_of_load h
  obtain ⟨l, s, root, -, hroot, hdecode⟩ := inFile_eq_ok.1 hfile
  rw [entries_repaired]
  exact Document.exists_entries_of_decode (Json.sorted_of_ofText? hroot) hdecode

theorem order_of_decode {root : Json} (h : Document.decode catalog policy p root = .ok c) :
    c.order = c := by
  obtain ⟨d, -, rfl⟩ := Document.decode_eq_ok.1 h
  have hentries : ordered (ordered d.entries) = ordered d.entries :=
    sortBy_of_pairwise (pairwise_ordered _)
  simp only [order, hentries]

theorem order_of_inFile (h : inFile t catalog policy p = .ok d) : d.order = d := by
  obtain ⟨l, s, root, -, -, hdecode⟩ := inFile_eq_ok.1 h
  exact order_of_decode hdecode

theorem order_repaired (h : d.order = d) : d.repaired.order = d.repaired := by
  have hentries : ordered d.entries = d.entries := congrArg entries h
  unfold order
  rw [entries_repaired, hentries, ← entries_repaired]

theorem reload_eq_ok {source source' : ResetSource}
    (h : reload t catalog policy p source = (t', .ok (d, source'))) :
    ∃ c, load t catalog policy p = (t', .ok c) ∧ d = c.order ∧ source' = source := by
  unfold reload at h
  split at h
  · simp at h
  · rename_i t₁ c hload
    simp only [Prod.mk.injEq, Except.ok.injEq] at h
    obtain ⟨rfl, rfl, rfl⟩ := h
    exact ⟨c, hload, rfl, rfl⟩

/-- Where a reset takes its result from, by the look-ups for the name. -/
def resetRule (c : Configuration) (t : FileTree) (builtins : Builtins) (resolver : Resolver) :
    Except Error ResetSource :=
  match builtins.find t c.name with
  | .error e => .error e
  | .ok (some b) => .ok (.builtIn b.path)
  | .ok none => match c.savedFile? t resolver with
    | some p => .ok (.saved p)
    | none => .ok .defaults

theorem reset_eq (c : Configuration) (t : FileTree) (catalog : Catalog) (policy : LoadPolicy)
    (builtins : Builtins) (resolver : Resolver) :
    c.reset t catalog policy builtins resolver =
      match c.resetRule t builtins resolver with
      | .error e => (t, .error e)
      | .ok source => match source.path? with
        | some p => reload t catalog policy p source
        | none => (t, .ok (c.clear catalog, source)) := by
  unfold reset resetRule
  cases builtins.find t c.name with
  | error e => rfl
  | ok entry =>
    cases entry with
    | some b => rfl
    | none => cases c.savedFile? t resolver <;> rfl

theorem reset_of_path {builtins : Builtins} {resolver : Resolver} {source : ResetSource}
    (hrule : c.resetRule t builtins resolver = .ok source) (hp : source.path? = some p) :
    c.reset t catalog policy builtins resolver = reload t catalog policy p source := by
  simp only [reset_eq, hrule, hp]

/-- A reset that succeeds has loaded a file, or has cleared the configuration. -/
theorem reset_cases {builtins : Builtins} {resolver : Resolver} {source : ResetSource}
    (h : c.reset t catalog policy builtins resolver = (t', .ok (d, source))) :
    (∃ p c', source.path? = some p ∧ load t catalog policy p = (t', .ok c') ∧ d = c'.order) ∨
      source.path? = none ∧ t' = t ∧ d = c.clear catalog := by
  rw [reset_eq] at h
  split at h
  · exact absurd h (by simp)
  split at h
  · rename_i p hp
    obtain ⟨c', hload, hd, rfl⟩ := reload_eq_ok h
    exact Or.inl ⟨p, c', hp, hload, hd⟩
  · rename_i hp
    simp only [Prod.mk.injEq, Except.ok.injEq] at h
    obtain ⟨rfl, rfl, rfl⟩ := h
    exact Or.inr ⟨hp, rfl, rfl⟩

end Configuration

end LayerOverrides
