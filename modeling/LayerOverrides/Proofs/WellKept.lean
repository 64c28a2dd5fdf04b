import LayerOverrides.Configuration.CopyName
import LayerOverrides.Proofs.Loading

/-!
# Entries stay apart and in order

In a configuration that is new, decoded or loaded no two entries are for one layer, and they are
in rank order.  Inserting an entry, clearing and resetting put the entries in order again, and
none of them, nor the order itself or a copy, brings in a second entry for a layer
(`wellKept_apply`).  So the entries of a configuration are apart and in order after every run of
such actions (`wellKept_run`).
-/

namespace LayerOverrides

theorem LayerEntry.mayPrecede_iff_rank {a b : LayerEntry} :
    a.mayPrecede b = true ↔ ∀ n ∈ b.rank, ∃ m ∈ a.rank, m ≤ n := by
  unfold mayPrecede
  rcases a.rank with _ | m <;> rcases b.rank with _ | n <;> simp

theorem layers_replaceIn (entry : LayerEntry) : ∀ entries : List LayerEntry,
    (replaceIn entry entries).map LayerEntry.layer =
      if entry.layer ∈ entries.map LayerEntry.layer then entries.map LayerEntry.layer
      else entries.map LayerEntry.layer ++ [entry.layer]
  | [] => rfl
  | e :: entries => by
    unfold replaceIn
    by_cases h : e.layer = entry.layer
    · simp [h]
    · have hmem : entry.layer ∈ (e :: entries).map LayerEntry.layer ↔
          entry.layer ∈ entries.map LayerEntry.layer := by simp [Ne.symm h]
      rw [if_neg h, List.map_cons, layers_replaceIn entry entries, if_congr hmem rfl rfl]
      split_ifs <;> rfl

theorem layers_cleared (catalog : Catalog) (entries : List LayerEntry) :
    (entries.map (Configuration.cleared catalog)).map LayerEntry.layer =
      entries.map LayerEntry.layer := by
  rw [List.map_map]
  rfl

namespace Configuration

/-- One entry for each layer, in rank order and those without a rank at the end, and in each entry
one value for each setting. -/
structure WellKept (c : Configuration) : Prop where
  layers : (c.entries.map LayerEntry.layer).Nodup
  ranks : c.entries.Pairwise fun a b => ∀ n ∈ b.rank, ∃ m ∈ a.rank, m ≤ n
  keys : ∀ e ∈ c.entries, e.settings.keys.Nodup

theorem wellKept_of_ordered {c : Configuration} {entries : List LayerEntry}
    (hc : c.entries = ordered entries) (hn : (entries.map LayerEntry.layer).Nodup) :
    c.WellKept where
  layers := hc ▸ nodup_layer_ordered hn
  ranks := by
    rw [hc]
    exact (pairwise_ordered entries).imp LayerEntry.mayPrecede_iff_rank.1
  keys e _ := e.settings.nodup

theorem WellKept.order {c : Configuration} (h : c.WellKept) : c.order.WellKept :=
  wellKept_of_ordered rfl h.layers

/-- What a run begins with. -/
inductive IsStart : Configuration → Prop where
  | named (name : String) : IsStart (.named name)
  | decoded {catalog : Catalog} {policy : LoadPolicy} {path : Path} {root : Json}
    {c : Configuration} (hs : root.sorted = true)
    (h : Document.decode catalog policy path root = .ok c) : IsStart c
  | loaded {t t' : FileTree} {catalog : Catalog} {policy : LoadPolicy} {p : Path}
    {c : Configuration} (h : load t catalog policy p = (t', .ok c)) : IsStart c

/-- What can be done to a configuration.  Files and built-ins may be others at each reset. -/
inductive Action where
  | insert (entry : LayerEntry)
  | order
  | clear (catalog : Catalog)
  | duplicate (existing : List Configuration)
  | reset (t : FileTree) (catalog : Catalog) (policy : LoadPolicy) (builtins : Builtins)
    (resolver : Resolver)

/-- A reset that fails leaves the configuration as it is. -/
def apply (c : Configuration) : Action → Configuration
  | .insert entry => c.insert entry
  | .order => c.order
  | .clear catalog => c.clear catalog
  | .duplicate existing => c.duplicate existing
  | .reset t catalog policy builtins resolver =>
    match (c.reset t catalog policy builtins resolver).2 with
    | .ok (d, _) => d
    | .error _ => c

def run (c : Configuration) (actions : List Action) : Configuration := actions.foldl apply c

theorem wellKept_of_isStart {c : Configuration} (h : c.IsStart) : c.WellKept := by
  cases h with
  | named name => exact ⟨.nil, .nil, by simp [Configuration.named]⟩
  | decoded hs h =>
    obtain ⟨entries, hc, hn⟩ := Document.exists_entries_of_decode hs h
    exact wellKept_of_ordered hc hn
  | loaded h =>
    obtain ⟨entries, hc, hn⟩ := exists_entries_of_load h
    exact wellKept_of_ordered hc hn

theorem wellKept_insert {c : Configuration} (h : c.WellKept) (entry : LayerEntry) :
    (c.insert entry).WellKept := by
  refine wellKept_of_ordered rfl ?_
  rw [layers_replaceIn]
  exact nodup_addOnce h.layers entry.layer

theorem wellKept_clear {c : Configuration} (h : c.WellKept) (catalog : Catalog) :
    (c.clear catalog).WellKept := by
  refine wellKept_of_ordered rfl ?_
  rw [layers_cleared]
  exact h.layers

theorem wellKept_reset {c d : Configuration} (hc : c.WellKept) {t t' : FileTree}
    {catalog : Catalog} {policy : LoadPolicy} {builtins : Builtins} {resolver : Resolver}
    {source : ResetSource}
    (h : c.reset t catalog policy builtins resolver = (t', .ok (d, source))) : d.WellKept := by
  rcases reset_cases h with ⟨p, c', -, hload, rfl⟩ | ⟨-, -, rfl⟩
  · exact (wellKept_of_isStart (.loaded hload)).order
  · exact wellKept_clear hc catalog

theorem wellKept_apply {c : Configuration} (h : c.WellKept) (a : Action) :
    (c.apply a).WellKept := by
  cases a with
  | insert entry => exact wellKept_insert h entry
  | order => exact h.order
  | clear catalog => exact wellKept_clear h catalog
  | duplicate existing => exact ⟨h.layers, h.ranks, h.keys⟩
  | reset t catalog policy builtins resolver =>
    simp only [apply]
    rcases hreset : c.reset t catalog policy builtins resolver with ⟨t', e | ⟨d, source⟩⟩
    · exact h
    · exact wellKept_reset h hreset

theorem wellKept_run_of_wellKept : ∀ (actions : List Action) {c : Configuration}, c.WellKept →
    (c.run actions).WellKept
  | [], _, h => h
  | a :: actions, _, h => wellKept_run_of_wellKept actions (wellKept_apply h a)

/-- Whatever is done to a new, decoded or loaded configuration, its entries stay apart and in
order. -/
theorem wellKept_run (c : Configuration) (h : c.IsStart) (actions : List Action) :
    (c.run actions).WellKept :=
  wellKept_run_of_wellKept actions (wellKept_of_isStart h)

end Configuration

namespace Samples

/-- An entry with a new rank in the place of another, a reset that fails, and a copy. -/
def actions : List Configuration.Action :=
  [.insert ⟨"C", .excluded, some 7, .all, .empty⟩, .insert ⟨"A", .overridden, none, .all, .empty⟩,
    .reset .empty catalog .default (.fixed [⟨"N", .ofString "missing.json"⟩]) fun _ _ => none,
    .duplicate [wrappedRead], .clear catalog, .order]

end Samples

open Samples

theorem wellKept_run_wrappedRead :
    wrappedRead.IsStart ∧ (wrappedRead.run actions).WellKept :=
  have hs : wrapped.sorted = true := by decide
  have h : Document.decode catalog .default .empty wrapped = .ok wrappedRead := by cbv
  have hstart : wrappedRead.IsStart := .decoded hs h
  ⟨hstart, Configuration.wellKept_run wrappedRead hstart actions⟩

end LayerOverrides
