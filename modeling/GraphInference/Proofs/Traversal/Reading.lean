import GraphInference.Proofs.Graph.Elements
import GraphInference.Traversal.FragmentSet

/-!
# The declarative reading of fragments

What a fragment says of an assignment, without a direction and without a search: `Fragment.Holds`.
The two directions of an edge say the same. A fragment set holds if one of its fragments does.
-/

namespace GraphInference

/-- The link accepts a casting by its role and by a type of its relation. -/
def RoleLink.Accepts (link : RoleLink) (g : Graph) (c : Casting) : Prop :=
  (∀ roles, link.roles = some roles → c.role ∈ roles) ∧
    ∀ types, link.relationTypes = some types →
      ∃ t ∈ g.concepts, g.IsA c.relation t.id ∧ ∃ l ∈ types, t.label = some l

namespace Fragment

section Vars

variable {u v w : Var}

attribute [local simp] vars start finish?

@[simp] theorem mem_vars_identity {id : ConceptId} : v ∈ (identity u id).vars ↔ v = u := by
  simp

@[simp] theorem mem_vars_labelled {l : Label} : v ∈ (labelled u l).vars ↔ v = u := by
  simp

@[simp] theorem mem_vars_valued {p : Constraint} : v ∈ (valued u p).vars ↔ v = u := by
  simp

@[simp] theorem mem_vars_outIsa : v ∈ (outIsa u w).vars ↔ v = u ∨ v = w := by
  simp

@[simp] theorem mem_vars_inIsa : v ∈ (inIsa w u).vars ↔ v = u ∨ v = w := by
  simp [or_comm]

@[simp] theorem mem_vars_outPlayer {link : RoleLink} : v ∈ (outPlayer link).vars ↔
    v = link.relation ∨ v = link.casting ∨ v = link.player := by
  simp [or_comm]

@[simp] theorem mem_vars_inPlayer {link : RoleLink} : v ∈ (inPlayer link).vars ↔
    v = link.relation ∨ v = link.casting ∨ v = link.player := by
  simp [or_comm, or_left_comm]

@[simp] theorem mem_vars_neq : v ∈ (neq u w).vars ↔ v = u ∨ v = w := by
  simp

theorem start_mem_vars (f : Fragment) : f.start ∈ f.vars := by
  simp

end Vars

/-- What a fragment says of an assignment. -/
def Holds (g : Graph) (a : Assignment) : Fragment → Prop
  | .identity v id => g.Holds id ∧ a.find? v = some (g.element id)
  | .labelled v l => ∃ t ∈ g.concepts, t.label = some l ∧ a.find? v = some (g.element t.id)
  | .valued v p => ∃ c ∈ g.concepts, a.find? v = some (g.element c.id) ∧
      ∃ x, c.value = some x ∧ p.test x = true
  | .outIsa thing type | .inIsa type thing => ∃ i t, g.IsA i t ∧
      a.find? thing = some (g.element i) ∧ a.find? type = some (g.element t)
  | .outPlayer link | .inPlayer link => ∃ r c, g.Plays r c ∧ link.Accepts g c ∧
      a.find? link.relation = some r ∧ a.find? link.casting = some (.casting c) ∧
      a.find? link.player = some (g.element c.player)
  | .neq left right => ∃ l r, a.find? left = some l ∧ a.find? right = some r ∧ l ≠ r

/-- A fragment reads its own variables only. -/
theorem Holds.congr {g : Graph} {f : Fragment} {a b : Assignment}
    (h : ∀ v ∈ f.vars, a.find? v = b.find? v) : f.Holds g a ↔ f.Holds g b := by
  cases f <;> simp at h <;> simp [Holds, h]

/-- A fragment holds only if its variables are assigned, elements of the graph where it does not
depend on them. -/
theorem Holds.exists_element {g : Graph} (hg : g.WellFormed) {f : Fragment} {a : Assignment}
    (h : f.Holds g a) {v : Var} (hv : v ∈ f.vars) :
    ∃ e, a.find? v = some e ∧ (v ∉ f.dependencies → g.HasElement e) := by
  cases f with
  | identity u id =>
    obtain rfl := mem_vars_identity.mp hv
    exact ⟨_, h.2, fun _ => Graph.hasElement_element h.1⟩
  | labelled u l =>
    obtain rfl := mem_vars_labelled.mp hv
    obtain ⟨t, ht, -, ha⟩ := h
    exact ⟨_, ha, fun _ => Graph.hasElement_element ⟨t, ht, rfl⟩⟩
  | valued u p =>
    obtain rfl := mem_vars_valued.mp hv
    obtain ⟨c, hc, ha, -⟩ := h
    exact ⟨_, ha, fun _ => Graph.hasElement_element ⟨c, hc, rfl⟩⟩
  | outIsa thing type | inIsa type thing =>
    obtain ⟨i, t, hisA, hi, ht⟩ := h
    obtain ⟨hthing, htype⟩ := hg.isA_holds hisA
    simp only [mem_vars_outIsa, mem_vars_inIsa] at hv
    obtain rfl | rfl := hv
    · exact ⟨_, hi, fun _ => Graph.hasElement_element hthing.holds⟩
    · exact ⟨_, ht, fun _ => Graph.hasElement_element htype.holds⟩
  | outPlayer link | inPlayer link =>
    obtain ⟨r, c, hplays, -, hr, hc, hp⟩ := h
    obtain ⟨hrelation, rfl, hplayer⟩ := hg.plays_holds hplays
    simp only [mem_vars_outPlayer, mem_vars_inPlayer] at hv
    obtain rfl | rfl | rfl := hv
    · exact ⟨_, hr, fun _ => Graph.hasElement_element hrelation.holds⟩
    · exact ⟨_, hc, fun _ => ⟨_, hplays⟩⟩
    · exact ⟨_, hp, fun _ => Graph.hasElement_element hplayer⟩
  | neq left right =>
    obtain ⟨l, r, hl, hr, -⟩ := h
    have hdep : v ∈ (neq left right).dependencies := by
      simpa [dependencies] using hv
    obtain rfl | rfl := mem_vars_neq.mp hv
    · exact ⟨_, hl, fun hn => absurd hdep hn⟩
    · exact ⟨_, hr, fun hn => absurd hdep hn⟩

end Fragment

/-- A fragment set says what its fragments say. -/
def FragmentSet.Holds (g : Graph) (a : Assignment) (s : FragmentSet) : Prop :=
  ∃ f ∈ s.fragments, f.Holds g a

end GraphInference
