import LayerOverrides.Proofs.Repairs
import LayerOverrides.Proofs.WellKept

/-!
# The rules of a reset

A reset goes by the first of its rules that applies, and there always is exactly one
(`rule_resetRule`, `resetRule_of_rule`): the built-in configurations cannot be listed, the first of
them that has the name is loaded, the file of the name is loaded from the place for saved
configurations or else from the former one, or every layer is given back to the application.  A
reset that fails changes neither the configuration nor a file; one that loads a file gives exactly
what the load gives, under a name; and one that gives the layers back changes nothing but the
states, ranks and settings of the entries (`reset_outcome`).
-/

namespace LayerOverrides

namespace Configuration

open FileTree

variable {t : FileTree} {catalog : Catalog} {policy : LoadPolicy} {builtins : Builtins}
  {resolver : Resolver} {p : Path} {c d : Configuration}

/-! ## Which rule applies -/

/-- The built-in configurations can be listed, and none has the name. -/
def NotBuiltIn (c : Configuration) (t : FileTree) (builtins : Builtins) : Prop :=
  ∃ listed, builtins.list t = .ok listed ∧ ∀ b ∈ listed, b.name ≠ c.name

/-- There is no file of the name in the place. -/
def NotIn (place : Place) (c : Configuration) (t : FileTree) (resolver : Resolver) : Prop :=
  ∀ p, resolver place c.name = some p → t.isFile p = false

/-- The rules of a reset, each with the condition that none before it applies. -/
inductive ResetRule (c : Configuration) (t : FileTree) (builtins : Builtins)
    (resolver : Resolver) : Except Error ResetSource → Prop where
  | unlisted {e : Error} (hlist : builtins.list t = .error e) :
    ResetRule c t builtins resolver (.error e)
  | builtIn {before after : List Builtin} {b : Builtin}
    (hlist : builtins.list t = .ok (before ++ b :: after))
    (hbefore : ∀ b' ∈ before, b'.name ≠ c.name) (hname : b.name = c.name) :
    ResetRule c t builtins resolver (.ok (.builtIn b.path))
  | saved {p : Path} (hbuiltin : c.NotBuiltIn t builtins)
    (hp : resolver .saved c.name = some p) (hfile : t.isFile p = true) :
    ResetRule c t builtins resolver (.ok (.saved p))
  | legacy {p : Path} (hbuiltin : c.NotBuiltIn t builtins) (hsaved : NotIn .saved c t resolver)
    (hp : resolver .legacy c.name = some p) (hfile : t.isFile p = true) :
    ResetRule c t builtins resolver (.ok (.saved p))
  | defaults (hbuiltin : c.NotBuiltIn t builtins) (hsaved : NotIn .saved c t resolver)
    (hlegacy : NotIn .legacy c t resolver) :
    ResetRule c t builtins resolver (.ok .defaults)

theorem find_eq_none_iff : builtins.find t c.name = .ok none ↔ c.NotBuiltIn t builtins := by
  unfold Builtins.find NotBuiltIn
  cases builtins.list t with
  | error e => simp
  | ok listed => simp [List.find?_eq_none]

theorem notIn_iff {place : Place} :
    NotIn place c t resolver ↔ (resolver place c.name).filter t.isFile = none := by
  unfold NotIn
  cases resolver place c.name <;> simp

theorem find?_toList {α : Type} (o : Option α) (q : α → Bool) : o.toList.find? q = o.filter q := by
  cases o with
  | none => rfl
  | some a => cases h : q a <;> simp [h, Option.filter]

theorem savedFile?_eq (c : Configuration) (t : FileTree) (resolver : Resolver) :
    c.savedFile? t resolver = ((resolver .saved c.name).filter t.isFile).or
      ((resolver .legacy c.name).filter t.isFile) := by
  have hplaces : [Place.saved, Place.legacy].filterMap (fun place => resolver place c.name) =
      (resolver .saved c.name).toList ++ (resolver .legacy c.name).toList := by
    cases hsaved : resolver .saved c.name <;> cases hlegacy : resolver .legacy c.name <;>
      simp [hsaved, hlegacy]
  rw [savedFile?, hplaces, List.find?_append, find?_toList, find?_toList]

theorem resetRule_of_rule {rule : Except Error ResetSource}
    (h : ResetRule c t builtins resolver rule) : c.resetRule t builtins resolver = rule := by
  cases h with
  | unlisted hlist => simp [resetRule, Builtins.find, hlist]
  | @builtIn before after b hlist hbefore hname =>
    have hfind : (before ++ b :: after).find? (fun b => b.name == c.name) = some b := by
      rw [List.find?_append, List.find?_eq_none.2 (by simpa using hbefore)]
      simp [hname]
    simp [resetRule, Builtins.find, hlist, hfind]
  | saved hbuiltin hp hfile =>
    have hin := Option.filter_eq_some_iff.2 ⟨hp, hfile⟩
    simp [resetRule, find_eq_none_iff.2 hbuiltin, savedFile?_eq, hin]
  | legacy hbuiltin hsaved hp hfile =>
    have hin := Option.filter_eq_some_iff.2 ⟨hp, hfile⟩
    simp [resetRule, find_eq_none_iff.2 hbuiltin, savedFile?_eq, notIn_iff.1 hsaved, hin]
  | defaults hbuiltin hsaved hlegacy =>
    simp [resetRule, find_eq_none_iff.2 hbuiltin, savedFile?_eq, notIn_iff.1 hsaved,
      notIn_iff.1 hlegacy]

theorem rule_resetRule (c : Configuration) (t : FileTree) (builtins : Builtins)
    (resolver : Resolver) :
    ResetRule c t builtins resolver (c.resetRule t builtins resolver) := by
  unfold resetRule
  split
  · rename_i e hfind
    unfold Builtins.find at hfind
    split at hfind
    · rename_i hlist
      exact .unlisted (Except.error.inj hfind ▸ hlist)
    · exact absurd hfind (by simp)
  · rename_i b hfind
    unfold Builtins.find at hfind
    split at hfind
    · exact absurd hfind (by simp)
    · rename_i listed hlist
      obtain ⟨hname, before, after, rfl, hbefore⟩ :=
        List.find?_eq_some_iff_append.1 (Except.ok.inj hfind)
      exact .builtIn hlist (by simpa using hbefore) (by simpa using hname)
  · rename_i hfind
    have hbuiltin := find_eq_none_iff.1 hfind
    rw [savedFile?_eq]
    cases hsaved : (resolver .saved c.name).filter t.isFile with
    | some p =>
      obtain ⟨hp, hfile⟩ := Option.filter_eq_some_iff.1 hsaved
      exact .saved hbuiltin hp hfile
    | none =>
      cases hlegacy : (resolver .legacy c.name).filter t.isFile with
      | some p =>
        obtain ⟨hp, hfile⟩ := Option.filter_eq_some_iff.1 hlegacy
        exact .legacy hbuiltin (notIn_iff.2 hsaved) hp hfile
      | none => exact .defaults hbuiltin (notIn_iff.2 hsaved) (notIn_iff.2 hlegacy)

/-! ## What the rules do -/

/-- The configuration and the tree after a reset, and what the reset tells. -/
def resetInPlace (c : Configuration) (t : FileTree) (catalog : Catalog) (policy : LoadPolicy)
    (builtins : Builtins) (resolver : Resolver) :
    FileTree × Configuration × Except Error ResetSource :=
  ((c.reset t catalog policy builtins resolver).1,
    c.apply (.reset t catalog policy builtins resolver),
    (c.reset t catalog policy builtins resolver).2.map Prod.snd)

/-- What a load makes of a reset: one that fails changes nothing, and one that succeeds gives its
configuration, under a name. -/
def Reloads (c : Configuration) (t : FileTree) (catalog : Catalog) (policy : LoadPolicy)
    (source : ResetSource) (p : Path)
    (outcome : FileTree × Configuration × Except Error ResetSource) : Prop :=
  (∃ e, load t catalog policy p = (t, .error e) ∧ outcome = (t, c, .error e)) ∨
    ∃ t' d, load t catalog policy p = (t', .ok d) ∧ d.isNameless = false ∧
      outcome = (t', d, .ok source)

/-- The entry is the same one, given back to the application with the defaults of its layer. -/
structure GivenBack (catalog : Catalog) (e e' : LayerEntry) : Prop where
  layer : e'.layer = e.layer
  platforms : e'.platforms = e.platforms
  state : e'.state = .applicationControlled
  rank : e'.rank = none
  known : ∀ layer, catalog.find? e.layer = some layer → e'.settings = layer.defaults
  unknown : catalog.find? e.layer = none → e'.settings = .empty

/-- Every entry has been given back in its place, and nothing else has changed. -/
structure AllGivenBack (catalog : Catalog) (c d : Configuration) : Prop where
  entries : List.Forall₂ (GivenBack catalog) c.entries d.entries
  others : d = { c with entries := d.entries }

theorem givenBack_cleared (catalog : Catalog) (e : LayerEntry) :
    GivenBack catalog e (cleared catalog e) where
  layer := rfl
  platforms := rfl
  state := rfl
  rank := rfl
  known layer h := by simp [cleared, Catalog.defaults, h]
  unknown h := by simp [cleared, Catalog.defaults, h]

/-- Without ranks, the entries stay in their order. -/
theorem ordered_map_cleared (catalog : Catalog) (entries : List LayerEntry) :
    ordered (entries.map (cleared catalog)) = entries.map (cleared catalog) :=
  sortBy_of_pairwise (List.pairwise_of_forall_mem_list fun a ha b hb => by
    obtain ⟨a, -, rfl⟩ := List.mem_map.1 ha
    obtain ⟨b, -, rfl⟩ := List.mem_map.1 hb
    rfl)

theorem allGivenBack_clear (c : Configuration) (catalog : Catalog) :
    AllGivenBack catalog c (c.clear catalog) where
  entries := by
    rw [clear, order, ordered_map_cleared, List.forall₂_map_right_iff, List.forall₂_same]
    exact fun e _ => givenBack_cleared catalog e
  others := rfl

theorem resetInPlace_of_error {t' : FileTree} {e : Error}
    (h : c.reset t catalog policy builtins resolver = (t', .error e)) :
    c.resetInPlace t catalog policy builtins resolver = (t', c, .error e) := by
  simp [resetInPlace, apply, h, Except.map]

theorem resetInPlace_of_ok {t' : FileTree} {source : ResetSource}
    (h : c.reset t catalog policy builtins resolver = (t', .ok (d, source))) :
    c.resetInPlace t catalog policy builtins resolver = (t', d, .ok source) := by
  simp [resetInPlace, apply, h, Except.map]

theorem reloads_of_path {source : ResetSource}
    (hrule : c.resetRule t builtins resolver = .ok source) (hp : source.path? = some p) :
    c.Reloads t catalog policy source p
      (c.resetInPlace t catalog policy builtins resolver) := by
  have hreset : c.reset t catalog policy builtins resolver = reload t catalog policy p source :=
    reset_of_path hrule hp
  cases hfile : inFile t catalog policy p with
  | error e =>
    have hload := load_of_error hfile
    refine Or.inl ⟨e, hload, resetInPlace_of_error ?_⟩
    simp only [hreset, reload, hload]
  | ok d =>
    obtain ⟨t', hload⟩ := load_of_inFile hfile
    refine Or.inr ⟨t', d.repaired, hload, d.isNameless_repaired, resetInPlace_of_ok ?_⟩
    simp only [hreset, reload, hload, order_repaired (order_of_inFile hfile)]

/-- Exactly one rule applies to a reset, and the reset does what the rule says. -/
theorem reset_outcome (c : Configuration) (t : FileTree) (catalog : Catalog)
    (policy : LoadPolicy) (builtins : Builtins) (resolver : Resolver) :
    ∃ rule, ResetRule c t builtins resolver rule ∧
      (∀ rule', ResetRule c t builtins resolver rule' → rule' = rule) ∧
      match rule with
      | .error e => c.resetInPlace t catalog policy builtins resolver = (t, c, .error e)
      | .ok (.builtIn p) => c.Reloads t catalog policy (.builtIn p) p
          (c.resetInPlace t catalog policy builtins resolver)
      | .ok (.saved p) => c.Reloads t catalog policy (.saved p) p
          (c.resetInPlace t catalog policy builtins resolver)
      | .ok .defaults => ∃ d, AllGivenBack catalog c d ∧
          c.resetInPlace t catalog policy builtins resolver = (t, d, .ok .defaults) := by
  refine ⟨c.resetRule t builtins resolver, c.rule_resetRule t builtins resolver,
    fun rule' h => (resetRule_of_rule h).symm, ?_⟩
  have hreset := c.reset_eq t catalog policy builtins resolver
  split <;> rename_i hrule
  · rw [hrule] at hreset
    exact resetInPlace_of_error hreset
  · exact reloads_of_path hrule rfl
  · exact reloads_of_path hrule rfl
  · rw [hrule] at hreset
    exact ⟨c.clear catalog, c.allGivenBack_clear catalog, resetInPlace_of_ok hreset⟩

end Configuration

end LayerOverrides
