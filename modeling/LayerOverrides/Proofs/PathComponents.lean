import LayerOverrides.Proofs.Siblings

/-!
# Components at the end of paths

The segments of a path are its components, one by one, but for idle ones; only the first segment
can also be the root, or a dot that counts (`components_of_segments`).  So a child has one component
more than the path that it is put behind (`components_child`), and a path that ends in a name has
one more than its parent (`exists_parent_of_fileName?`).
-/

namespace LayerOverrides.Path

variable {p q : Path} {s first : Segment} {front idle rest : List Segment}

theorem eq_empty_iff : p = empty ↔ p.segments = [.empty] := by
  cases p
  simp [empty]

/-- What the first segment stands for, in a path that is not empty. -/
def firstComponents (s : Segment) : List Component :=
  if s = .empty then [.root] else if s = .dot then [.current] else (component? s).toList

theorem components_of_segments (hne : p ≠ empty) (hp : p.segments = first :: rest) :
    p.components = firstComponents first ++ rest.filterMap component? := by
  unfold components body isRooted firstComponents
  rw [ne_eq, eq_empty_iff, hp] at hne
  rw [hp]
  rcases rest with _ | ⟨second, rest⟩
  · have hfirst : first ≠ .empty := fun h => hne (h ▸ rfl)
    simp [hfirst]
  · by_cases hfirst : first = .empty <;> simp [hfirst]

theorem component?_of_name (hs : s.isIdle = false) (hdots : s ≠ .dots) :
    component? s = some (.name s) := by
  simp [component?, hs, hdots]

theorem firstComponents_of_name (hs : s.isIdle = false) (hdots : s ≠ .dots) :
    firstComponents s = [.name s] := by
  have hname := component?_of_name hs hdots
  simp only [Segment.isIdle, Bool.or_eq_false_iff, decide_eq_false_iff_not] at hs
  rw [firstComponents, if_neg hs.1, if_neg hs.2, hname, Option.toList_some]

theorem filterMap_component?_idle (hidle : ∀ x ∈ idle, x.isIdle) :
    idle.filterMap component? = [] := by
  rw [List.filterMap_eq_nil_iff]
  intro x hx
  simp [component?, hidle x hx]

theorem ne_empty_of_mem (h : s ∈ p.segments) (hs : s.isIdle = false) : p ≠ empty := by
  intro hp
  rw [eq_empty_iff.1 hp, List.mem_singleton] at h
  rw [h] at hs
  exact absurd hs (by decide)

/-- A path has the components of the shorter one that leaves out idle segments around a name,
unless they are the first. -/
theorem components_eq_of_idle {skipped : List Segment} (hs : s.isIdle = false) (hdots : s ≠ .dots)
    (hp : p.segments = front ++ (skipped ++ s :: idle)) (hq : q.segments = front ++ [s])
    (hfront : front = [] → skipped = []) (hskipped : ∀ x ∈ skipped, x.isIdle)
    (hidle : ∀ x ∈ idle, x.isIdle) : p.components = q.components := by
  have hpne : p ≠ empty := ne_empty_of_mem (by simp [hp]) hs
  have hqne : q ≠ empty := ne_empty_of_mem (by simp [hq]) hs
  rcases front with _ | ⟨first, rest⟩
  · rw [hfront rfl] at hp
    rw [components_of_segments hpne hp, components_of_segments hqne hq,
      filterMap_component?_idle hidle, List.filterMap_nil]
  · rw [components_of_segments hpne hp, components_of_segments hqne hq]
    simp [component?_of_name hs hdots, filterMap_component?_idle hskipped,
      filterMap_component?_idle hidle]

theorem components_child (hs : s.isIdle = false) (hdots : s ≠ .dots) (p : Path) :
    (p.child s).components = p.components ++ [.name s] := by
  obtain ⟨front, hchild, hfront⟩ := p.child_segments
  have hchildne : p.child s ≠ empty := ne_empty_of_mem (by simp [hchild]) hs
  by_cases hp : p = empty
  · have hsegments : (p.child s).segments = [s] := by rw [child, join, if_pos (Or.inr hp)]
    rw [components_of_segments hchildne hsegments, firstComponents_of_name hs hdots, hp]
    rfl
  rcases front with _ | ⟨first, rest⟩
  · rcases hfront with hnil | hempty
    · exact absurd hnil p.segments_ne_nil
    · exact absurd (eq_empty_iff.2 hempty) hp
  have hname := component?_of_name hs hdots
  have hempty : component? .empty = none := rfl
  rw [components_of_segments hchildne (hchild s)]
  rcases hfront with hfront | hfront
  · rw [components_of_segments hp hfront]
    simp [hname]
  · rw [components_of_segments hp hfront]
    simp [hname, hempty]

theorem isRooted_of_segments (hp : p.segments = .empty :: rest) (hrest : rest ≠ []) :
    p.isRooted = true := by
  obtain ⟨second, rest, rfl⟩ := List.exists_cons_of_ne_nil hrest
  simp [isRooted, hp]

theorem eq_empty_of_withoutIdleEnd (h : withoutIdleEnd false (first :: rest) = []) :
    first = .empty := by
  obtain ⟨idle, hcut, hidle⟩ := exists_idle_end false (first :: rest)
  rw [h, List.nil_append] at hcut
  have hfirst := hidle first (hcut ▸ List.mem_cons_self)
  simp only [Segment.isIdle, Bool.or_eq_true, decide_eq_true_eq] at hfirst
  refine hfirst.resolve_right fun hdot => ?_
  unfold withoutIdleEnd at h
  split at h
  · simp [hdot] at h
  · rename_i hkept
    exact hkept h

/-- The parent of a path that ends in a name has all of its components but that name. -/
theorem exists_parent_of_fileName? (h : p.fileName? = some s) :
    ∃ q, p.parent? = some q ∧ p.components = q.components ++ [.name s] := by
  obtain ⟨hs, hdots, front, idle, hp, hidle⟩ := exists_front_of_fileName? h
  obtain ⟨body, hbody, rfl⟩ := exists_body hp hs
  obtain ⟨skipped, hcut, hskipped⟩ := exists_idle_end p.isRooted body
  refine ⟨_, parent?_of_body hbody hs hidle, ?_⟩
  rw [← components_child hs hdots]
  refine components_eq_of_idle hs hdots ?_
    (child_ofBody (getLast?_withoutIdleEnd p.isRooted body) s) ?_ hskipped hidle
  · rw [hp]
    conv_lhs => rw [hcut]
    simp only [List.append_assoc]
  · intro hnil
    obtain ⟨hroot, hkept⟩ := List.append_eq_nil_iff.1 hnil
    have hrooted : p.isRooted = false := by
      by_contra hr
      simp [rootSegments, hr] at hroot
    rw [hkept, List.nil_append] at hcut
    rw [hrooted, hcut] at hkept
    rcases skipped with _ | ⟨first, rest⟩
    · rfl
    -- An empty segment in front of the name would be the root.
    obtain rfl := eq_empty_of_withoutIdleEnd hkept
    rw [hroot, hcut] at hp
    rw [isRooted_of_segments hp (by simp)] at hrooted
    exact absurd hrooted (by simp)

end LayerOverrides.Path
