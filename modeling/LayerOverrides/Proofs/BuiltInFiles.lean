import LayerOverrides.Proofs.ResetRules
import LayerOverrides.Proofs.WriteOutcomes

/-!
# Files of the built-in configurations under a reset

A reset writes nothing, and the one file it can take away is the one it loads: that is gone exactly
if the configuration in it has no name (`lacks_of_discards`, `tree_of_not_discards`).  So a reset
leaves the files of all built-in configurations as they are exactly if it does not load such a file
as one of them (`keepsBuiltIns_iff`).
-/

namespace LayerOverrides

namespace Configuration

open FileTree

variable {t t' : FileTree} {catalog : Catalog} {policy : LoadPolicy} {builtins : Builtins}
  {resolver : Resolver} {p q : Path} {l : Location} {content : Content} {c : Configuration}

/-- The reset loads the file at the path, and the configuration in it has no name. -/
def Discards (c : Configuration) (t : FileTree) (catalog : Catalog) (policy : LoadPolicy)
    (builtins : Builtins) (resolver : Resolver) (p : Path) : Prop :=
  ∃ source d, ResetRule c t builtins resolver (.ok source) ∧ source.path? = some p ∧
    Tells t catalog policy p d ∧ d.isNameless = true

/-- The two paths lead to one file. -/
def SameFile (t : FileTree) (p q : Path) : Prop :=
  ∃ l content, t.find p = .ok (l, .file content) ∧ t.find q = .ok (l, .file content)

/-- Every file in the list of built-in configurations is left as it is. -/
def KeepsBuiltIns (c : Configuration) (t : FileTree) (catalog : Catalog) (policy : LoadPolicy)
    (builtins : Builtins) (resolver : Resolver) : Prop :=
  ∀ listed, builtins.list t = .ok listed → ∀ b ∈ listed, ∀ l content,
    t.find b.path = .ok (l, .file content) →
      (c.reset t catalog policy builtins resolver).1.find b.path = .ok (l, .file content)

theorem fst_reload {source : ResetSource} :
    (reload t catalog policy p source).1 = (load t catalog policy p).1 := by
  unfold reload
  split <;> rename_i h <;> rw [h]

theorem fst_reset_of_path {source : ResetSource}
    (hrule : ResetRule c t builtins resolver (.ok source)) (hp : source.path? = some p) :
    (c.reset t catalog policy builtins resolver).1 = (load t catalog policy p).1 := by
  rw [reset_of_path (resetRule_of_rule hrule) hp, fst_reload]

theorem lacks_of_discards (h : c.Discards t catalog policy builtins resolver p) :
    Lacks t (c.reset t catalog policy builtins resolver).1 p := by
  obtain ⟨source, d, hrule, hp, htells, hname⟩ := h
  obtain ⟨l, s, hfind, hload⟩ := load_of_nameless (inFile_eq_ok.2 htells) hname
  rw [fst_reset_of_path hrule hp, hload]
  exact lacks_erase hfind

theorem tree_of_not_discards (h : ∀ p, ¬ c.Discards t catalog policy builtins resolver p) :
    (c.reset t catalog policy builtins resolver).1 = t := by
  have hrule := c.rule_resetRule t builtins resolver
  cases hr : c.resetRule t builtins resolver with
  | error e => rw [reset_eq, hr]
  | ok source =>
    rw [hr] at hrule
    cases hp : source.path? with
    | none => simp only [reset_eq, hr, hp]
    | some p =>
      rw [fst_reset_of_path hrule hp]
      cases hfile : inFile t catalog policy p with
      | error e => rw [load_of_error hfile]
      | ok d =>
        rw [load_of_named hfile]
        exact eq_false_of_ne_true fun hname =>
          h p ⟨source, d, hrule, hp, inFile_eq_ok.1 hfile, hname⟩

theorem find_iff_of_lacks (h : Lacks t t' p) (hq : t.find q = .ok (l, .file content)) :
    t'.find q = .ok (l, .file content) ↔ ¬ SameFile t p q := by
  obtain ⟨⟨k, content', hp, hwithout⟩, -⟩ := h
  obtain ⟨hcheck, hwalk, hfile⟩ := find_eq_ok.1 hp
  have hgone : ∀ k' ∈ [k], ∃ c, t.entryAt k' = some (.file c) := by simpa using ⟨content', hfile⟩
  constructor
  · rintro hkept ⟨k', content'', hp', hq'⟩
    rw [hp] at hp'
    obtain ⟨rfl, -⟩ := Prod.mk.inj (Except.ok.inj hp')
    rw [find_of_mem_gone hwithout hgone hq' (List.mem_singleton_self _)] at hkept
    exact absurd hkept (by simp)
  · refine fun hnot => find_of_without hwithout hgone hq fun hl => hnot ?_
    obtain rfl := List.mem_singleton.1 hl
    exact ⟨l, content, find_eq_ok.2 ⟨hcheck, hwalk, (find_eq_ok.1 hq).2.2⟩, hq⟩

/-- The only file that a reset takes away is the one it loads, by whatever path it is found. -/
theorem find_reset_iff (hq : t.find q = .ok (l, .file content)) :
    (c.reset t catalog policy builtins resolver).1.find q = .ok (l, .file content) ↔
      ¬ ∃ p, c.Discards t catalog policy builtins resolver p ∧ SameFile t p q := by
  constructor
  · rintro hkept ⟨p, hp, hsame⟩
    exact (find_iff_of_lacks (lacks_of_discards hp) hq).1 hkept hsame
  · intro hnot
    by_cases hdiscards : ∃ p, c.Discards t catalog policy builtins resolver p
    · obtain ⟨p, hp⟩ := hdiscards
      exact (find_iff_of_lacks (lacks_of_discards hp) hq).2 fun hsame => hnot ⟨p, hp, hsame⟩
    · rw [tree_of_not_discards (not_exists.1 hdiscards)]
      exact hq

/-- A reset leaves the files of the built-in configurations as they are, unless it loads one of
them, as a built-in configuration or as a saved one, and the configuration in it has no name. -/
theorem keepsBuiltIns_iff (c : Configuration) (t : FileTree) (catalog : Catalog)
    (policy : LoadPolicy) (builtins : Builtins) (resolver : Resolver) :
    c.KeepsBuiltIns t catalog policy builtins resolver ↔
      ¬ ∃ listed, builtins.list t = .ok listed ∧ ∃ b ∈ listed, ∃ p,
        c.Discards t catalog policy builtins resolver p ∧ SameFile t p b.path := by
  constructor
  · rintro hkept ⟨listed, hlist, b, hb, p, hp, l, content, hfindp, hfind⟩
    exact (find_reset_iff hfind).1 (hkept listed hlist b hb l content hfind)
      ⟨p, hp, l, content, hfindp, hfind⟩
  · rintro hnot listed hlist b hb l content hfind
    refine (find_reset_iff hfind).2 ?_
    rintro ⟨p, hp, hsame⟩
    exact hnot ⟨listed, hlist, b, hb, p, hp, hsame⟩

end Configuration

namespace Samples

/-- A document with a configuration that says nothing, not even a name. -/
def untitled : Json :=
  .object [("configuration", .object []), ("file_format_version", .string "2.2.0")]

def templates : Builtins := .inDirectory (.ofString "b")

def template : Path := .ofString "b/N.json"

/-- The tree with nothing but the directory of built-in configurations and its one file. -/
def shipped : FileTree := afterWrite template (untitled.toText .pretty)

def resetToTemplate : FileTree × Except Error (Configuration × ResetSource) :=
  (Configuration.named "N").reset shipped [] .default templates fun _ _ => none

end Samples

open Samples

/-- The one built-in configuration is loaded, and its file is gone. -/
theorem reset_removes_template :
    templates.list shipped = .ok [⟨"N", template⟩] ∧
      shipped.readText template = .ok (untitled.toText .pretty) ∧
      resetToTemplate.2.map Prod.snd = .ok (.builtIn template) ∧
      resetToTemplate.1.find template = .error .notFound ∧
      templates.list resetToTemplate.1 = .ok [] := by
  refine ⟨?_, ?_, ?_, ?_, ?_⟩ <;> decide +kernel

end LayerOverrides
