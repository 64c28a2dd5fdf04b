import LayerOverrides.Proofs.Migration

/-!
# What the path and the policy tell of a document

How a document is read depends on its generation (`configuration?_of_wrapped`,
`configuration?_of_bare`): what has a wrapper is read without a look at the path or the policy,
and a bare document leaves nothing but its name to them.  The policy also tells the version of a
document that does not say its own.  So for a document with a legible version, the path and the
policy are without effect from the first version with a wrapper on, and before it they tell the
name and nothing else (`decode_of_declared`).
-/

namespace LayerOverrides

namespace Version

theorem not_lt {v w : Version} : ¬ v < w ↔ w ≤ v := .rfl

theorem not_le {v w : Version} : ¬ v ≤ w ↔ w < v := Decidable.not_not

end Version

namespace Document

theorem version_of_stated {members : Json.Members} {node : Json} {v : Version}
    (hnode : members.get? versionField = some node) (hv : statedVersion? node = some v)
    (policy : LoadPolicy) :
    version policy (.object members) = v := by
  have hof : (Json.object members).membersOf = members := rfl
  rw [version, hof, hnode, Option.bind_some, hv, Option.getD_some]

theorem ofVersion_eq_bare_iff {v : Version} :
    Generation.ofVersion v = .bare ↔ v < .firstWrapped := by
  unfold Generation.ofVersion
  split_ifs with hwrapped <;> simp [hwrapped]

/-- The name that a bare document gets: that of its file up to the version that the policy says,
and after it the one in the body. -/
structure Bare.HasName (policy : LoadPolicy) (version : Version) (path : Path)
    (body : Json.Members) (name : String) : Prop where
  ofFile : ∀ last ∈ policy.namedAfterFileUpTo, version ≤ last → name = path.stem?.getD ""
  ofBody : (∀ last ∈ policy.namedAfterFileUpTo, last < version) → name = body.textAt "name"

theorem Bare.hasName_name (policy : LoadPolicy) (version : Version) (path : Path)
    (body : Json.Members) :
    Bare.HasName policy version path body (Bare.name policy version path body) := by
  unfold Bare.name LoadPolicy.isNamedAfterFile
  cases hlast : policy.namedAfterFileUpTo with
  | none =>
    refine ⟨fun last h => ?_, fun _ => rfl⟩
    rw [hlast] at h
    cases h
  | some last =>
    refine ⟨fun last' h hle => ?_, fun h => ?_⟩
    · rw [hlast] at h
      cases h
      exact if_pos (decide_eq_true hle)
    · have hlt : ¬ version ≤ last := Version.not_le.2 (h last hlast)
      exact if_neg (by simpa using hlt)

end Document

/-- Of a document with a legible version, two readings with any paths and policies both refuse it
or agree: in everything from the first version with a wrapper on, and before it in everything but
the name, which is that of the file or that of the body. -/
theorem decode_of_declared (catalog : Catalog) (members : Json.Members) (node : Json) (v : Version)
    (hnode : members.get? Document.versionField = some node)
    (hv : Document.statedVersion? node = some v) (policy policy' : LoadPolicy)
    (path path' : Path) :
    (.firstWrapped ≤ v →
      (Document.decode catalog policy path (.object members) = .error (.notAConfiguration path) ∧
        Document.decode catalog policy' path' (.object members) =
          .error (.notAConfiguration path')) ∨
      ∃ c, Document.decode catalog policy path (.object members) = .ok c ∧
        Document.decode catalog policy' path' (.object members) = .ok c) ∧
    (v < .firstWrapped →
      (Document.decode catalog policy path (.object members) = .error (.notAConfiguration path) ∧
        Document.decode catalog policy' path' (.object members) =
          .error (.notAConfiguration path')) ∨
      ∃ body c d, Document.Bare.body? members = some body ∧
        Document.decode catalog policy path (.object members) = .ok c ∧
        Document.decode catalog policy' path' (.object members) = .ok d ∧
        d = { c with name := d.name } ∧ Document.Bare.HasName policy v path body c.name ∧
        Document.Bare.HasName policy' v path' body d.name) := by
  have hversion := Document.version_of_stated hnode hv policy
  have hversion' := Document.version_of_stated hnode hv policy'
  constructor
  · intro hle
    have hg : Generation.ofVersion v ≠ .bare := fun h =>
      Version.not_lt.2 hle (Document.ofVersion_eq_bare_iff.1 h)
    have h := Document.configuration?_of_wrapped hg hversion catalog path
    have h' := Document.configuration?_of_wrapped hg hversion' catalog path'
    cases hbody : Document.Wrapped.body? members with
    | none =>
      rw [hbody] at h h'
      exact .inl ⟨Document.decode_of_none h, Document.decode_of_none h'⟩
    | some body =>
      rw [hbody] at h h'
      exact .inr ⟨_, Document.decode_of_some h, Document.decode_of_some h'⟩
  · intro hlt
    have hg := Document.ofVersion_eq_bare_iff.2 hlt
    have h := Document.configuration?_of_bare (hversion.symm ▸ hg) catalog path
    have h' := Document.configuration?_of_bare (hversion'.symm ▸ hg) catalog path'
    rw [hversion] at h
    rw [hversion'] at h'
    cases hbody : Document.Bare.body? members with
    | none =>
      rw [hbody] at h h'
      exact .inl ⟨Document.decode_of_none h, Document.decode_of_none h'⟩
    | some body =>
      rw [hbody] at h h'
      exact .inr ⟨body, _, _, rfl, Document.decode_of_some h, Document.decode_of_some h', rfl,
        Document.Bare.hasName_name policy v path body,
        Document.Bare.hasName_name policy' v path' body⟩

namespace Samples

/-- A policy that takes names from files far past the first version with a wrapper. -/
def fileNames : LoadPolicy := ⟨some ⟨2, 5, 0⟩, .unstated⟩

end Samples

/-- A bare document, of which two readings tell different names, and one with a wrapper, which is
read alike even with a policy that takes names from the files of its version. -/
theorem decode_of_declared_bare_wrapped :
    (Samples.bare.membersOf.get? Document.versionField = some (.string "2.0.2") ∧
      Document.statedVersion? (.string "2.0.2") = some ⟨2, 0, 2⟩ ∧
      ∃ body c d, Document.Bare.body? Samples.bare.membersOf = some body ∧
        Document.decode Samples.catalog .default .empty Samples.bare = .ok c ∧
        Document.decode Samples.catalog Samples.fileNames (.ofString "d/x.json") Samples.bare =
          .ok d ∧
        d = { c with name := d.name } ∧
        Document.Bare.HasName .default ⟨2, 0, 2⟩ .empty body c.name ∧
        Document.Bare.HasName Samples.fileNames ⟨2, 0, 2⟩ (.ofString "d/x.json") body d.name) ∧
    Samples.wrapped.membersOf.get? Document.versionField = some (.string "2.1.0") ∧
      Document.statedVersion? (.string "2.1.0") = some ⟨2, 1, 0⟩ ∧
      ∃ c, Document.decode Samples.catalog .default .empty Samples.wrapped = .ok c ∧
        Document.decode Samples.catalog Samples.fileNames (.ofString "d/x.json") Samples.wrapped =
          .ok c := by
  constructor
  · have hnode : Samples.bare.membersOf.get? Document.versionField = some (.string "2.0.2") := rfl
    have hv : Document.statedVersion? (.string "2.0.2") = some ⟨2, 0, 2⟩ := by decide
    have hread : Document.decode Samples.catalog .default .empty Samples.bare =
        .ok Samples.bareRead := by cbv
    refine ⟨hnode, hv, ?_⟩
    rcases (decode_of_declared Samples.catalog _ _ _ hnode hv .default Samples.fileNames .empty
      (.ofString "d/x.json")).2 (by decide) with ⟨h, -⟩ | h
    · exact absurd (hread.symm.trans h) (by simp)
    · exact h
  · have hnode : Samples.wrapped.membersOf.get? Document.versionField = some (.string "2.1.0") :=
      rfl
    have hv : Document.statedVersion? (.string "2.1.0") = some ⟨2, 1, 0⟩ := by decide
    have hread : Document.decode Samples.catalog .default .empty Samples.wrapped =
        .ok Samples.wrappedRead := by cbv
    refine ⟨hnode, hv, ?_⟩
    rcases (decode_of_declared Samples.catalog _ _ _ hnode hv .default Samples.fileNames .empty
      (.ofString "d/x.json")).1 (by decide) with ⟨h, -⟩ | h
    · exact absurd (hread.symm.trans h) (by simp)
    · exact h

end LayerOverrides
