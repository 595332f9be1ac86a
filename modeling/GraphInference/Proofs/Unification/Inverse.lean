import GraphInference.Proofs.Query.Renaming
import GraphInference.Proofs.Unification.Alignment

/-!
# Inverses of unifiers

A unifier that is one-to-one on the variables of a query can be turned around, and leads back:
`AtomicQuery.exists_inverse`.
-/

namespace GraphInference

namespace Unifier

variable {u w : Unifier} {v x : Var}

theorem mem_pairs_of_get? (h : u.get? v = some x) : (v, x) ∈ u.pairs := by
  obtain ⟨p, hp, rfl⟩ := Option.map_eq_some_iff.mp h
  have hv : p.1 = v := by simpa using List.find?_some hp
  exact hv ▸ List.mem_of_find?_eq_some hp

/-- With one pair for each source every pair is found. -/
theorem get?_eq_some_iff (hu : u.sources.Nodup) : u.get? v = some x ↔ (v, x) ∈ u.pairs := by
  refine ⟨mem_pairs_of_get?, fun h => ?_⟩
  have hsome : (u.pairs.find? fun p => p.1 = v).isSome = true :=
    List.find?_isSome.mpr ⟨_, h, decide_eq_true rfl⟩
  obtain ⟨p, hp⟩ := Option.isSome_iff_exists.mp hsome
  have hv : p.1 = v := by simpa using List.find?_some hp
  have hpair : p = (v, x) :=
    List.inj_on_of_nodup_map hu (List.mem_of_find?_eq_some hp) h hv
  rw [get?, hp, hpair]
  rfl

theorem nodup_sources_of_add (h : u.add v x = .ok w) (hu : u.sources.Nodup) : w.sources.Nodup := by
  rw [add] at h
  split at h
  · next hv =>
    obtain rfl := Except.ok.inj h
    show (List.map Prod.fst (u.pairs ++ [(v, x)])).Nodup
    rw [List.map_append]
    refine List.nodup_append.mpr ⟨hu, List.nodup_singleton v, fun a ha b hb => ?_⟩
    obtain rfl := List.mem_singleton.mp hb
    rintro rfl
    obtain ⟨p, hp, rfl⟩ := List.mem_map.mp ha
    rw [(get?_eq_some_iff hu).mpr hp] at hv
    cases hv
  · split at h
    · obtain rfl := Except.ok.inj h
      exact hu
    · cases h

theorem nodup_sources_of_addAll {pairs : List (Var × Var)} (h : u.addAll pairs = .ok w)
    (hu : u.sources.Nodup) : w.sources.Nodup := by
  induction pairs generalizing u with
  | nil =>
    obtain rfl := Except.ok.inj h
    exact hu
  | cons p pairs ih =>
    obtain ⟨u', hu', h⟩ := Except.bind_eq_ok.mp h
    exact ih h (nodup_sources_of_add hu' hu)

/-- Pairs with different targets can be turned around. -/
theorem invertOnto_eq_ok {done : Unifier} {pairs : List (Var × Var)}
    (h : (done.sources ++ pairs.map Prod.snd).Nodup) :
    invertOnto done pairs = .ok ⟨done.pairs ++ pairs.map Prod.swap⟩ := by
  induction pairs generalizing done with
  | nil => simp [invertOnto]
  | cons p pairs ih =>
    obtain ⟨s, t⟩ := p
    have hnot : ¬ done.contains t = true := by
      intro hcontains
      obtain ⟨x, hx⟩ := Option.isSome_iff_exists.mp hcontains
      have hmem : t ∈ done.sources := List.mem_map.mpr ⟨_, mem_pairs_of_get? hx, rfl⟩
      exact (List.nodup_append.mp h).2.2 t hmem t (.head _) rfl
    rw [invertOnto, if_neg hnot, ih]
    · simp
    · have hsources : sources ⟨done.pairs ++ [(t, s)]⟩ = done.sources ++ [t] := by
        simp [sources]
      rw [hsources, List.append_assoc]
      exact h

theorem inverse_eq_ok (h : u.targets.Nodup) : u.inverse = .ok ⟨u.pairs.map Prod.swap⟩ :=
  invertOnto_eq_ok h

/-- The inverse leads back to every variable on which the unifier is one-to-one together with its
sources. -/
theorem apply_inverse (hu : u.sources.Nodup) (ht : u.targets.Nodup)
    (hinj : ∀ s ∈ u.sources, u.apply s = u.apply v → s = v) :
    apply ⟨u.pairs.map Prod.swap⟩ (u.apply v) = v := by
  have hsources : sources ⟨u.pairs.map Prod.swap⟩ = u.targets := by
    simp [sources, targets, Function.comp_def]
  have hget {t s : Var} : get? ⟨u.pairs.map Prod.swap⟩ t = some s ↔ (s, t) ∈ u.pairs := by
    rw [get?_eq_some_iff (hsources ▸ ht)]
    simp
  cases hv : u.get? v with
  | some x =>
    rw [apply_of_get? hv]
    exact apply_of_get? (hget.mpr (mem_pairs_of_get? hv))
  | none =>
    rw [apply_of_get?_eq_none hv]
    refine apply_of_get?_eq_none (Option.eq_none_iff_forall_ne_some.mpr fun s hs => ?_)
    have hs := hget.mp hs
    have heq : s = v := by
      refine hinj s (List.mem_map.mpr ⟨_, hs, rfl⟩) ?_
      rw [apply_of_get? ((get?_eq_some_iff hu).mpr hs), apply_of_get?_eq_none hv]
    rw [heq, ← get?_eq_some_iff hu, hv] at hs
    cases hs

end Unifier

/-! ## Unifiers of queries -/

theorem Anchor.nodup_sources_of_unifier {a b : Anchor} {u : Unifier} (h : a.unifier b = .ok u) :
    u.sources.Nodup := by
  obtain ⟨u', hu', h⟩ := Atom.exists_of_anchorUnifier h
  have hu'' : u'.sources.Nodup := by
    split at hu'
    · exact Unifier.nodup_sources_of_add hu' .nil
    · obtain rfl := Except.ok.inj hu'
      exact .nil
  split at h
  · obtain rfl := Except.ok.inj h
    exact hu''
  · exact Unifier.nodup_sources_of_add h hu''

theorem Atom.nodup_sources_of_unifier {a b : Atom} {u : Unifier} (ha : a.isPredicate = false)
    (h : a.unifier b = .ok u) : u.sources.Nodup := by
  cases a with
  | isa c =>
    cases b with
    | isa d => exact Anchor.nodup_sources_of_unifier h
    | _ => cases h
  | relation r =>
    cases b with
    | relation s =>
      obtain ⟨u', hu', h⟩ := Except.bind_eq_ok.mp h
      obtain ⟨pairs, -, h⟩ := Except.bind_eq_ok.mp h
      split at h
      · next hadd =>
        obtain rfl := Except.ok.inj h
        exact Unifier.nodup_sources_of_addAll hadd (Anchor.nodup_sources_of_unifier hu')
      · cases h
    | _ => cases h
  | _ => cases ha

namespace AtomicQuery

variable {q r : AtomicQuery} {u : Unifier}

/-- A unifier has one target for each of its sources, which are variables of the query. -/
theorem sources_of_unifier (hq : q.central.isPredicate = false) (h : q.unifier r = .ok u) :
    u.sources.Nodup ∧ u.sources ⊆ q.slots := by
  obtain ⟨u', hu', h⟩ := Except.bind_eq_ok.mp h
  have hnodup := Atom.nodup_sources_of_unifier hq hu'
  have hslots : u'.sources ⊆ q.slots := by
    intro v hv
    obtain ⟨p, hp, rfl⟩ := List.mem_map.mp hv
    have hget := (Unifier.get?_eq_some_iff hnodup).mpr hp
    obtain ⟨-, hv | hv | ⟨i, -, _, _, hi, -⟩⟩ := ((Atom.get?_unifier hq hu').2 _ _).mp hget
    · exact hv.1 ▸ var_mem_slots
    · obtain ⟨htype, -⟩ := Option.filter_eq_some_iff.mp hv.1
      obtain ⟨c, hc, htype⟩ := Option.map_eq_some_iff.mp htype
      have htypeVar : q.central.typeVar = p.1 := by
        rw [Atom.typeVar, hc]
        exact htype
      exact htypeVar ▸ typeVar_mem_slots
    · exact player_mem_slots (List.mem_of_getElem? hi)
  split at h
  · refine ⟨Unifier.nodup_sources_of_add h hnodup, fun v hv => ?_⟩
    obtain ⟨p, hp, rfl⟩ := List.mem_map.mp hv
    rw [← Unifier.get?_eq_some_iff (Unifier.nodup_sources_of_add h hnodup),
      Unifier.get?_eq_some_of_add h] at hp
    rcases hp with hp | ⟨hp, -⟩
    · exact hslots (List.mem_map.mpr ⟨_, Unifier.mem_pairs_of_get? hp, rfl⟩)
    · exact hp ▸ var_mem_slots
  · obtain rfl := Except.ok.inj h
    exact ⟨hnodup, hslots⟩

/-- A unifier that is one-to-one on the variables of the query has an inverse that leads back to
them. -/
theorem exists_inverse (hq : q.central.isPredicate = false) (h : q.unifier r = .ok u)
    (hinj : ∀ v ∈ q.slots, ∀ w ∈ q.slots, u.apply v = u.apply w → v = w) :
    ∃ w, u.inverse = .ok w ∧ ∀ v ∈ q.slots, w.apply (u.apply v) = v := by
  obtain ⟨hnodup, hslots⟩ := sources_of_unifier hq h
  have htargets : u.targets.Nodup := by
    have hmap : u.targets = u.sources.map u.apply := by
      rw [Unifier.targets, Unifier.sources, List.map_map]
      refine List.map_congr_left fun p hp => ?_
      exact (Unifier.apply_of_get? ((Unifier.get?_eq_some_iff hnodup).mpr hp)).symm
    rw [hmap]
    exact hnodup.map_on fun s hs t ht => hinj s (hslots hs) t (hslots ht)
  refine ⟨_, Unifier.inverse_eq_ok htargets, fun v hv => ?_⟩
  exact Unifier.apply_inverse hnodup htargets fun s hs => hinj s (hslots hs) v hv

end AtomicQuery

end GraphInference
