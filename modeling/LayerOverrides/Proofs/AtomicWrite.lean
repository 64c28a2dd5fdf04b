import LayerOverrides.Proofs.Siblings
import LayerOverrides.Proofs.TreeWalks
import LayerOverrides.Storage

/-!
# What a successful write leaves behind

A write first adds the directories that are missing around its path (`prepare_adds`).  It then
creates its temporary file, which gets the whole content or the write fails (`writeFile_ok`), and
renames it; both are in the directory that the path leads to, so that in the end the file holds the
new content, the temporary one is gone, and every other entry is as it was (`replaces_of_replace`).
Main statements: `readText_of_write`, and `find_of_write` for what is under another name than the
file and the temporary one.
-/

namespace LayerOverrides

/-- The paths in front of a path, from the longest on. -/
def Path.above (p : Path) : List Path :=
  match p.parent? with
  | some parent => parent.ancestors
  | none => []

namespace FileTree

variable {t t' t'' : FileTree} {p q : Path}

/-- The second tree is the first one with more directories. -/
def GainsDirectories (t t' : FileTree) : Prop :=
  ∀ l, t'.entryAt l = t.entryAt l ∨ t.entryAt l = none ∧ t'.entryAt l = some .directory

theorem GainsDirectories.entryAt (h : GainsDirectories t t') {l : Location} {e : Entry}
    (he : t.entryAt l = some e) : t'.entryAt l = some e := by
  rcases h l with hl | ⟨hl, -⟩
  · rw [hl, he]
  · rw [hl] at he
    exact absurd he (by simp)

theorem GainsDirectories.keeps (h : GainsDirectories t t') : KeepsDirectories t t' :=
  fun _ hd => h.entryAt hd

/-- The second tree is the first one with more directories, each of which one of the paths leads
to. -/
def AddsDirectories (paths : List Path) (t t' : FileTree) : Prop :=
  ∀ l, t'.entryAt l = t.entryAt l ∨
    t.entryAt l = none ∧ ∃ q ∈ paths, t'.find q = .ok (l, .directory)

theorem AddsDirectories.refl (paths : List Path) (t : FileTree) : AddsDirectories paths t t :=
  fun _ => Or.inl rfl

theorem AddsDirectories.gains {paths : List Path} (h : AddsDirectories paths t t') :
    GainsDirectories t t' := by
  intro l
  rcases h l with hl | ⟨hl, q, -, hq⟩
  · exact Or.inl hl
  · exact Or.inr ⟨hl, (find_eq_ok.1 hq).2.2⟩

theorem AddsDirectories.trans {paths : List Path} (h : AddsDirectories paths t t')
    (h' : AddsDirectories paths t' t'') : AddsDirectories paths t t'' := by
  intro l
  rcases h' l with hl' | ⟨hl', hq'⟩
  · rcases h l with hl | ⟨hl, q, hmem, hq⟩
    · exact Or.inl (hl'.trans hl)
    · exact Or.inr ⟨hl, q, hmem, find_of_keepsDirectories h'.gains.keeps hq⟩
  · rcases h l with hl | ⟨hl, -, -, -⟩
    · exact Or.inr ⟨hl ▸ hl', hq'⟩
    · exact Or.inr ⟨hl, hq'⟩

theorem AddsDirectories.mono {paths paths' : List Path} (h : AddsDirectories paths t t')
    (hsub : paths ⊆ paths') : AddsDirectories paths' t t' := by
  intro l
  rcases h l with hl | ⟨hl, q, hmem, hq⟩
  · exact Or.inl hl
  · exact Or.inr ⟨hl, q, hsub hmem, hq⟩

theorem AddsDirectories.find {paths : List Path} (h : AddsDirectories paths t t') {l : Location}
    {e : Entry} (hp : t.find p = .ok (l, e)) : t'.find p = .ok (l, e) := by
  obtain ⟨hcheck, hwalk, he⟩ := find_eq_ok.1 hp
  exact find_eq_ok.2
    ⟨hcheck, walk_of_keepsDirectories h.gains.keeps _ hwalk, h.gains.entryAt he⟩

theorem AddsDirectories.file_iff {paths : List Path} (h : AddsDirectories paths t t')
    {l : Location} {c : Content} :
    t'.entryAt l = some (.file c) ↔ t.entryAt l = some (.file c) := by
  refine ⟨fun hc => ?_, h.gains.entryAt⟩
  rcases h.gains l with hl | ⟨-, hd⟩
  · rw [← hl, hc]
  · rw [hc] at hd
    exact absurd hd (by simp)

theorem find_insert_directory {l : Location} {n : FileName} {slash : Bool}
    (ht : t.target p = .ok (.named l n slash)) :
    (t.insert (n :: l) .directory).find p = .ok (n :: l, .directory) := by
  obtain ⟨hp, -, front, idle, hsegments, hidle, hwalk, hd⟩ := exists_front_of_named ht
  have hkeeps : KeepsDirectories t (t.insert (n :: l) .directory) := by
    intro l' hl'
    rw [entryAt_insert t (by simp)]
    split
    · rfl
    · exact hl'
  have hnew : (t.insert (n :: l) .directory).entryAt (n :: l) = some .directory := by
    rw [entryAt_insert t (by simp), if_pos rfl]
  refine find_eq_ok.2 ⟨hp, ?_, hnew⟩
  rw [hsegments, walk_append, walk_of_keepsDirectories hkeeps _ hwalk, Except.bind,
    walk_name (hkeeps l hd)]
  exact walk_idle hnew fun s hs => by simp [hidle s hs, Path.Segment.isIdle]

theorem makeDirectory_ok (h : t.makeDirectory p = .ok t') :
    ∃ l n slash, t.target p = .ok (.named l n slash) ∧ t.entryAt (n :: l) = none ∧
      t' = t.insert (n :: l) .directory := by
  unfold makeDirectory at h
  split at h
  · exact absurd h (by simp)
  · exact absurd h (by simp)
  · rename_i l n slash ht
    split at h
    · exact absurd h (by simp)
    · rename_i hnone
      exact ⟨l, n, slash, ht, hnone, (Except.ok.inj h).symm⟩

theorem makeDirectory_adds (h : t.makeDirectory p = .ok t') : AddsDirectories [p] t t' := by
  obtain ⟨l, n, slash, ht, hnone, rfl⟩ := makeDirectory_ok h
  intro l'
  by_cases hl : l' = n :: l
  · subst hl
    exact Or.inr ⟨hnone, p, by simp, find_insert_directory ht⟩
  · rw [entryAt_insert t (by simp), if_neg hl]
    exact Or.inl rfl

theorem limit_makeDirectory (h : t.makeDirectory p = .ok t') : t'.limit = t.limit := by
  obtain ⟨l, n, slash, -, -, rfl⟩ := makeDirectory_ok h
  rfl

/-- What every new directory brings about, and what goes on from one to the next, is brought about
by all of them. -/
theorem makeDirectoriesFrom_steps {r : FileTree → FileTree → Prop} (hrefl : ∀ t, r t t)
    (htrans : ∀ {t t' t''}, r t t' → r t' t'' → r t t'') : ∀ (paths : List Path) (t : FileTree),
      (∀ p ∈ paths, ∀ {t t'}, t.makeDirectory p = .ok t' → r t t') →
        r t (t.makeDirectoriesFrom paths).1
  | [], t, _ => hrefl t
  | p :: above, t, hstep => by
    have hfirst : ∀ {t t'}, t.makeDirectory p = .ok t' → r t t' := hstep p List.mem_cons_self
    have ih := makeDirectoriesFrom_steps hrefl htrans above t fun q hq =>
      hstep q (List.mem_cons_of_mem p hq)
    unfold makeDirectoriesFrom
    split
    · rename_i h
      exact hfirst h
    · cases hr : t.makeDirectoriesFrom above with
      | mk t₁ result =>
        rw [hr] at ih
        cases result with
        | error e => exact ih
        | ok u =>
          simp only []
          split
          · rename_i h
            exact htrans ih (hfirst h)
          · split <;> exact ih
    · split <;> exact hrefl t

theorem makeDirectoriesFrom_adds (paths : List Path) (t : FileTree) :
    AddsDirectories paths t (t.makeDirectoriesFrom paths).1 :=
  makeDirectoriesFrom_steps (.refl paths) .trans paths t fun _ hp _ _ h =>
    (makeDirectory_adds h).mono (by simpa using hp)

theorem limit_makeDirectoriesFrom (paths : List Path) (t : FileTree) :
    (t.makeDirectoriesFrom paths).1.limit = t.limit :=
  makeDirectoriesFrom_steps (r := fun t t' => t'.limit = t.limit) (fun _ => rfl)
    (fun h h' => h'.trans h) paths t fun _ _ _ _ => limit_makeDirectory

/-- All of the content can be written. -/
def Fits (t : FileTree) (content : Content) : Prop :=
  ∀ limit ∈ t.limit, content.bytes.length ≤ limit.bytes

theorem fill_ok {content : Content} (h : (t.fill content).2 = .ok ()) :
    (t.fill content).1 = content ∧ t.Fits content := by
  unfold fill at h ⊢
  unfold Fits
  cases hlimit : t.limit with
  | none => exact ⟨rfl, by simp⟩
  | some limit =>
    simp only [hlimit] at h ⊢
    split at h
    · rename_i hbytes
      rw [if_pos hbytes]
      exact ⟨rfl, by simpa using hbytes⟩
    · exact absurd h (by simp)

theorem openFile_ok {l : Location} (h : t.openFile p = .ok l) :
    ∃ k n, l = n :: k ∧ t.target p = .ok (.named k n false) ∧
      t.entryAt (n :: k) ≠ some .directory := by
  unfold openFile at h
  split at h
  · exact absurd h (by simp)
  · exact absurd h (by simp)
  · exact absurd h (by simp)
  · rename_i k n ht
    split at h
    · exact absurd h (by simp)
    · rename_i hne
      exact ⟨k, n, (Except.ok.inj h).symm, ht, hne⟩

theorem writeFile_ok {content : Content} (h : t.writeFile p content = (t', .ok ())) :
    ∃ l n, t.target p = .ok (.named l n false) ∧ t.entryAt (n :: l) ≠ some .directory ∧
      t' = t.insert (n :: l) (.file content) ∧ t.Fits content := by
  unfold writeFile at h
  split at h
  · exact absurd h (by simp)
  · rename_i k hopen
    obtain ⟨rfl, hfill⟩ := Prod.mk.inj h
    obtain ⟨l, n, rfl, ht, hne⟩ := openFile_ok hopen
    obtain ⟨hcontent, hfits⟩ := fill_ok hfill
    exact ⟨l, n, ht, hne, by rw [hcontent], hfits⟩

/-- A write that fails has not opened the file, or has left a part of the content in it. -/
theorem writeFile_error {content : Content} {e : OsError}
    (h : t.writeFile p content = (t', .error e)) :
    t.openFile p = .error e ∧ t' = t ∨
      ∃ l n part, t.target p = .ok (.named l n false) ∧ t.entryAt (n :: l) ≠ some .directory ∧
        t' = t.insert (n :: l) (.file part) := by
  unfold writeFile at h
  split at h
  · rename_i e' hopen
    obtain ⟨rfl, he⟩ := Prod.mk.inj h
    exact Or.inl ⟨Except.error.inj he ▸ hopen, rfl⟩
  · rename_i k hopen
    obtain ⟨rfl, -⟩ := Prod.mk.inj h
    obtain ⟨l, n, rfl, ht, hne⟩ := openFile_ok hopen
    exact Or.inr ⟨l, n, _, ht, hne, rfl⟩

theorem renameFile_ok (h : t.renameFile p q = .ok t') :
    ∃ l content l' n, t.find p = .ok (l, .file content) ∧ t.target q = .ok (.named l' n false) ∧
      t.entryAt (n :: l') ≠ some .directory ∧
        t' = (t.erase l).insert (n :: l') (.file content) := by
  unfold renameFile at h
  split at h
  · exact absurd h (by simp)
  · exact absurd h (by simp)
  · exact absurd h (by simp)
  · exact absurd h (by simp)
  · exact absurd h (by simp)
  · rename_i l content l' n hf ht
    split at h
    · exact absurd h (by simp)
    · rename_i hne
      exact ⟨l, content, l', n, hf, ht, hne, (Except.ok.inj h).symm⟩

theorem keeps_insert_file {l : Location} (hl : t.entryAt l ≠ some .directory) (content : Content) :
    KeepsDirectories t (t.insert l (.file content)) := by
  intro l' hd
  have hne : l' ≠ l := by
    rintro rfl
    exact hl hd
  have hnil : l ≠ [] := by
    rintro rfl
    exact hl t.entryAt_nil
  rw [entryAt_insert t hnil, if_neg hne, hd]

theorem keeps_of_insert_file (t : FileTree) (n : FileName) (l : Location) (content : Content) :
    KeepsDirectories (t.insert (n :: l) (.file content)) t := by
  intro l' hd
  rw [entryAt_insert t (by simp)] at hd
  split at hd
  · exact absurd hd (by simp)
  · exact hd

/-- A path and its sibling lead into the same directory. -/
theorem eq_of_target_sibling {l k : Location} {n m : FileName} {name : Path.Segment}
    (h : t.target p = .ok (.named l n false))
    (h' : t.target (p.withFileName name) = .ok (.named k m false)) :
    k = l ∧ m.toSegment = name := by
  obtain ⟨-, front, hfront, hwalk, -⟩ := target_eq_named.1 h
  obtain ⟨-, front', hfront', hwalk', -⟩ := target_eq_named.1 h'
  obtain ⟨kept, idle, rfl, hidle, hsibling⟩ :=
    Path.exists_sibling hfront n.isIdle_toSegment (by simp)
  rw [hsibling] at hfront'
  obtain ⟨rfl, hlast⟩ := List.append_inj' hfront' rfl
  rw [walk_append, hwalk'] at hwalk
  exact ⟨(eq_of_walk_idle hidle hwalk).symm, (List.singleton_inj.1 hlast).symm⟩

theorem fileName?_of_target {l : Location} {n : FileName}
    (h : t.target p = .ok (.named l n false)) : p.fileName? = some n.toSegment := by
  obtain ⟨-, front, hfront, -, -⟩ := target_eq_named.1 h
  exact Path.fileName?_of_segments hfront n.isIdle_toSegment n.toSegment_ne_dots (by simp)

end FileTree

namespace Storage

open FileTree

variable {t t' : FileTree} {p q : Path} {content : String}

/-- The path of the temporary file. -/
def temporary? (p : Path) : Option Path :=
  p.fileName?.map fun name => p.withFileName (temporaryName name)

theorem temporary?_eq_some : temporary? p = some q ↔
    ∃ name, p.fileName? = some name ∧ p.withFileName (temporaryName name) = q := by
  simp [temporary?]

/-- In a directory, a file has got a content by way of a temporary file beside it, and nothing else
has changed. -/
structure Replaces (t t' : FileTree) (l : Location) (n m : FileName) (content : String) : Prop where
  temporary_eq : m.toSegment = temporaryName n.toSegment
  file_ne : t.entryAt (n :: l) ≠ some .directory
  temporary_ne : t.entryAt (m :: l) ≠ some .directory
  fits : t.Fits (.text content)
  entryAt_eq : ∀ l', t'.entryAt l' =
    if l' = n :: l then some (.file (.text content))
    else if l' = m :: l then none else t.entryAt l'

theorem Replaces.directory_iff {l : Location} {n m : FileName} (h : Replaces t t' l n m content)
    (l' : Location) : t'.entryAt l' = some .directory ↔ t.entryAt l' = some .directory := by
  rw [h.entryAt_eq]
  split
  · rename_i hl
    simp [hl, h.file_ne]
  split
  · rename_i hl
    simp [hl, h.temporary_ne]
  · rfl

theorem Replaces.keeps {l : Location} {n m : FileName} (h : Replaces t t' l n m content) :
    KeepsDirectories t t' := fun l' => (h.directory_iff l').2

theorem replaces_of_replace {name : Path.Segment} (hname : p.fileName? = some name)
    (h : replace t (p.withFileName (temporaryName name)) p content = (t', .ok ())) :
    ∃ l n m, t.target p = .ok (.named l n false) ∧
      t.target (p.withFileName (temporaryName name)) = .ok (.named l m false) ∧
        Replaces t t' l n m content := by
  unfold replace at h
  split at h
  · exact absurd h (by simp)
  rename_i t₁ hwrite
  split at h
  · exact absurd h (by simp)
  rename_i t₂ hrename
  obtain ⟨rfl, -⟩ := Prod.mk.inj h
  obtain ⟨k, m, htemporary, hm, rfl, hfits⟩ := writeFile_ok hwrite
  obtain ⟨k', written, l, n, hfind, htarget, hn, rfl⟩ := renameFile_ok hrename
  have hkeeps := keeps_insert_file hm (.text content)
  have hentry : (t.insert (m :: k) (.file (.text content))).entryAt (m :: k) =
      some (.file (.text content)) := by rw [entryAt_insert t (by simp), if_pos rfl]
  rw [find_of_target hkeeps htemporary hentry] at hfind
  simp only [Except.ok.injEq, Prod.mk.injEq, Entry.file.injEq] at hfind
  obtain ⟨rfl, rfl⟩ := hfind
  have htarget := target_of_keepsDirectories (keeps_of_insert_file t m k _) htarget
  rw [fileName?_of_target htarget, Option.some.injEq] at hname
  subst hname
  obtain ⟨rfl, hm'⟩ := eq_of_target_sibling htarget htemporary
  refine ⟨k, n, m, htarget, htemporary, hm', fun hd => hn (hkeeps _ hd), hm, hfits, fun l' => ?_⟩
  rw [entryAt_insert _ (by simp), entryAt_erase _ _ _ (by simp), entryAt_insert t (by simp)]
  by_cases hl : l' = m :: k
  · simp only [if_pos hl]
  · simp only [if_neg hl]

theorem fst_prepare (t : FileTree) (p : Path) :
    (prepare t p).1 = (t.makeDirectoriesFrom p.above).1 := by
  unfold prepare Path.above
  cases p.parent? with
  | none => rfl
  | some parent =>
    simp only [makeDirectories]
    split <;> simp [*]

theorem prepare_adds (t : FileTree) (p : Path) : AddsDirectories p.above t (prepare t p).1 :=
  fst_prepare t p ▸ makeDirectoriesFrom_adds p.above t

theorem limit_prepare (t : FileTree) (p : Path) : (prepare t p).1.limit = t.limit :=
  fst_prepare t p ▸ limit_makeDirectoriesFrom p.above t

theorem replaces_of_write (h : write t p content = (t', .ok ())) :
    ∃ t₁ q l n m, AddsDirectories p.above t t₁ ∧ t₁.limit = t.limit ∧ temporary? p = some q ∧
      t₁.target p = .ok (.named l n false) ∧ t₁.target q = .ok (.named l m false) ∧
        Replaces t₁ t' l n m content := by
  have hadds := prepare_adds t p
  have hlimit := limit_prepare t p
  unfold write at h
  split at h
  · exact absurd h (by simp)
  rename_i t₁ hprepare
  rw [hprepare] at hadds hlimit
  split at h
  · exact absurd h (by simp)
  rename_i name hname
  obtain ⟨l, n, m, htarget, htemporary, hreplaces⟩ := replaces_of_replace hname h
  exact ⟨t₁, _, l, n, m, hadds, hlimit, temporary?_eq_some.2 ⟨name, hname, rfl⟩, htarget,
    htemporary, hreplaces⟩

/-- After a write, the path leads to a file with the content. -/
theorem find_self_of_write (h : write t p content = (t', .ok ())) :
    ∃ l n, p.fileName? = some n.toSegment ∧ t'.find p = .ok (n :: l, .file (.text content)) := by
  obtain ⟨t₁, -, l, n, m, -, -, -, htarget, -, hreplaces⟩ := replaces_of_write h
  refine ⟨l, n, fileName?_of_target htarget, find_of_target hreplaces.keeps htarget ?_⟩
  rw [hreplaces.entryAt_eq, if_pos rfl]

theorem readText_of_write (h : write t p content = (t', .ok ())) :
    t'.readText p = .ok content := by
  obtain ⟨l, n, -, hfind⟩ := find_self_of_write h
  rw [readText, hfind]

/-- A write changes nothing under other names than those of its file and its temporary file. -/
theorem find_of_write (h : write t q content = (t', .ok ())) {name : Path.Segment}
    (hname : q.fileName? = some name) {l : Location} {n : FileName} {e : Entry}
    (hfind : t.find p = .ok (n :: l, e)) (hne : n.toSegment ≠ name)
    (htemporary : n.toSegment ≠ temporaryName name) : t'.find p = .ok (n :: l, e) := by
  obtain ⟨t₁, -, l', n', m', hadds, -, -, htarget, -, hreplaces⟩ := replaces_of_write h
  rw [fileName?_of_target htarget, Option.some.injEq] at hname
  subst hname
  obtain ⟨hp, hwalk, he⟩ := find_eq_ok.1 (hadds.find hfind)
  refine find_eq_ok.2 ⟨hp, walk_of_keepsDirectories hreplaces.keeps _ hwalk, ?_⟩
  rw [hreplaces.entryAt_eq, if_neg, if_neg, he]
  · intro hl
    exact htemporary ((List.cons.inj hl).1 ▸ hreplaces.temporary_eq)
  · intro hl
    exact hne (congrArg FileName.toSegment (List.cons.inj hl).1)

end Storage

end LayerOverrides
