import LayerOverrides.Proofs.DeclaredVersions

/-!
# Documents that are refused

A configuration has a place in a document: a wrapper, or in bare documents the first member that
is an object.  Where nothing stands there, there is none to read (`configuration?_eq_none_iff`).
No other flaw counts, since every field has a value to fall back on, so a document is refused for
the want of a body and for nothing else (`decode_outcome`).
-/

namespace LayerOverrides

namespace Document

/-- Nothing stands in the place for a configuration: a document is no object, or a bare one has no
object in it but perhaps in the version field, or the wrapper is missing or no object. -/
inductive Bodiless (policy : LoadPolicy) : Json → Prop where
  | noObject {root : Json} (h : root.members? = none) : Bodiless policy root
  | bare {members : Json.Members} (hv : version policy (.object members) < .firstWrapped)
    (h : ∀ m ∈ members, m.1 ≠ versionField → m.2.members? = none) :
    Bodiless policy (.object members)
  | wrapped {members : Json.Members}
    (hv : .firstWrapped ≤ version policy (.object members))
    (h : ∀ wrapper ∈ members.get? wrapperField, wrapper.members? = none) :
    Bodiless policy (.object members)

variable {members : Json.Members} {policy : LoadPolicy}

theorem Bare.body?_eq_none_iff :
    Bare.body? members = none ↔ ∀ m ∈ members, m.1 ≠ versionField → m.2.members? = none := by
  simp only [Bare.body?, List.findSome?_eq_none_iff, List.mem_filter, decide_eq_true_eq, and_imp]

theorem Wrapped.body?_eq_none_iff : Wrapped.body? members = none ↔
    ∀ wrapper ∈ members.get? wrapperField, wrapper.members? = none := by
  simp only [Wrapped.body?, Option.bind_eq_none_iff, Option.mem_def]

theorem bodiless_bare_iff (hv : version policy (.object members) < .firstWrapped) :
    Bodiless policy (.object members) ↔ Bare.body? members = none := by
  rw [Bare.body?_eq_none_iff]
  refine ⟨fun h => ?_, fun h => .bare hv h⟩
  cases h with
  | noObject h => cases h
  | bare _ h => exact h
  | wrapped hle _ => exact absurd hv (Version.not_lt.2 hle)

theorem bodiless_wrapped_iff (hv : .firstWrapped ≤ version policy (.object members)) :
    Bodiless policy (.object members) ↔ Wrapped.body? members = none := by
  rw [Wrapped.body?_eq_none_iff]
  refine ⟨fun h => ?_, fun h => .wrapped hv h⟩
  cases h with
  | noObject h => cases h
  | bare hlt _ => exact absurd hlt (Version.not_lt.2 hv)
  | wrapped _ h => exact h

theorem configuration?_eq_none_iff (catalog : Catalog) (policy : LoadPolicy) (path : Path)
    (root : Json) : configuration? catalog policy path root = none ↔ Bodiless policy root := by
  cases root with
  | object members =>
    by_cases hv : version policy (.object members) < .firstWrapped
    · rw [configuration?_of_bare (ofVersion_eq_bare_iff.2 hv), bodiless_bare_iff hv,
        Option.map_eq_none_iff]
    · rw [configuration?_of_wrapped (fun h => hv (ofVersion_eq_bare_iff.1 h)) rfl,
        bodiless_wrapped_iff (Version.not_lt.1 hv), Option.map_eq_none_iff]
  | _ => exact ⟨fun _ => .noObject rfl, fun _ => rfl⟩

end Document

/-- A document is refused, as none of ours and with its path, exactly when it has no body; every
other document is read. -/
theorem decode_outcome (catalog : Catalog) (policy : LoadPolicy) (path : Path) (root : Json) :
    (∀ e, Document.decode catalog policy path root = .error e ↔
      Document.Bodiless policy root ∧ e = .notAConfiguration path) ∧
    ((∃ c, Document.decode catalog policy path root = .ok c) ↔
      ¬ Document.Bodiless policy root) := by
  rw [← Document.configuration?_eq_none_iff catalog policy path root]
  cases h : Document.configuration? catalog policy path root with
  | none =>
    rw [Document.decode_of_none h]
    simp [eq_comm]
  | some c =>
    rw [Document.decode_of_some h]
    simp

end LayerOverrides
