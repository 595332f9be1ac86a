import GraphInference.Proofs.Graph.Hierarchy

/-!
# The loops over the type hierarchy

One loop climbs from a type to its parents until it meets a type again, the other one grows a list of
subtypes while it walks along it. Their runs are relations that bound no number of rounds
(`Graph.Climbs`, `Graph.Collects`): a run ends, and there is one for every graph, with parents in a
cycle or not. What the two return are converse relations.
-/

namespace GraphInference.Graph

variable {g : Graph} {chain found r r' : List ConceptId} {a b : ConceptId} {i : Nat}

/-- The loop over the parents, at `a` with `chain` found, returns a list. -/
inductive Climbs (g : Graph) : List ConceptId → ConceptId → List ConceptId → Prop where
  | root {chain : List ConceptId} {a : ConceptId} (h : ∀ p, ¬ g.HasParent a p) :
    Climbs g chain a chain
  | met {chain : List ConceptId} {a p : ConceptId} (h : g.HasParent a p) (hp : p ∈ chain) :
    Climbs g chain a chain
  | climb {chain r : List ConceptId} {a p : ConceptId} (h : g.HasParent a p) (hp : p ∉ chain)
    (rest : Climbs g (chain ++ [p]) p r) : Climbs g chain a r

/-- What is found after an entry of the parent map has been compared with `a`. -/
def pushChild (a : ConceptId) (found : List ConceptId) (e : ConceptId × ConceptId) :
    List ConceptId :=
  if e.2 = a ∧ e.1 ∉ found then found ++ [e.1] else found

/-- The loop over the list that it grows, at the position `i`, returns a list. -/
inductive Collects (g : Graph) : List ConceptId → Nat → List ConceptId → Prop where
  | done {found : List ConceptId} {i : Nat} (h : found.length ≤ i) : Collects g found i found
  | next {found r : List ConceptId} {i : Nat} {a : ConceptId} (h : found[i]? = some a)
    (rest : Collects g (g.parents.entries.foldl (pushChild a) found) (i + 1) r) :
    Collects g found i r

/-! ## Climbing -/

theorem Climbs.unique (h : g.Climbs chain a r) (h' : g.Climbs chain a r') : r = r' := by
  have hparent {a p q : ConceptId} (hp : g.HasParent a p) (hq : g.HasParent a q) : p = q :=
    Option.some.inj (hp.symm.trans hq)
  induction h with
  | root hnone =>
    cases h' with
    | root => rfl
    | met hp => exact absurd hp (hnone _)
    | climb hp => exact absurd hp (hnone _)
  | met hp hmem =>
    cases h' with
    | root hnone => exact absurd hp (hnone _)
    | met => rfl
    | climb hq hnot => exact absurd (hparent hp hq ▸ hmem) hnot
  | climb hp hnot _ ih =>
    cases h' with
    | root hnone => exact absurd hp (hnone _)
    | met hq hmem => exact absurd (hparent hp hq ▸ hmem) hnot
    | climb hq _ hrest =>
      obtain rfl := hparent hp hq
      exact ih hrest

theorem Climbs.nodup (h : g.Climbs chain a r) (hchain : chain.Nodup) : r.Nodup := by
  induction h with
  | root => exact hchain
  | met => exact hchain
  | climb _ hp _ ih => exact ih (List.concat_eq_append ▸ hchain.concat hp)

/-- The loop returns what it has found and the rest of the chain. -/
theorem climbs_parentChain {n : Nat} {seen : List ConceptId} (hseen : ∀ b, b ∈ seen ↔ b ∈ chain)
    (hn : (∃ p, g.HasParent a p) → (g.unseen seen).card < n) :
    g.Climbs chain a (chain ++ g.parentChain n seen a) := by
  induction n generalizing chain seen a with
  | zero =>
    rw [parentChain, List.append_nil]
    exact .root fun p hp => absurd (hn ⟨p, hp⟩) (Nat.not_lt_zero _)
  | succ n ih =>
    rw [parentChain]
    cases hp : g.parents.find? a with
    | none =>
      rw [List.append_nil]
      refine .root fun p hparent => ?_
      cases hp.symm.trans hparent
    | some p =>
      by_cases hmem : p ∈ seen
      · show g.Climbs chain a (chain ++ if p ∈ seen then [] else _)
        rw [if_pos hmem, List.append_nil]
        exact .met hp ((hseen p).mp hmem)
      · show g.Climbs chain a (chain ++ if p ∈ seen then [] else _)
        rw [if_neg hmem]
        have hseen' : ∀ b, b ∈ p :: seen ↔ b ∈ chain ++ [p] := fun b => by
          rw [List.mem_cons, List.mem_append, List.mem_singleton, hseen, or_comm]
        have hn' : (∃ q, g.HasParent p q) → (g.unseen (p :: seen)).card < n := by
          rintro ⟨q, hq⟩
          have hlt := card_unseen_cons_lt hq hmem
          have hle := hn ⟨p, hp⟩
          omega
        have hrest := ih hseen' hn'
        rw [List.append_assoc, List.singleton_append] at hrest
        exact .climb hp (mt (hseen p).mpr hmem) hrest

theorem climbs_supertypes (g : Graph) (a : ConceptId) : g.Climbs [a] a (g.supertypes a) := by
  have hseen : ∀ b, b ∈ [a] ↔ b ∈ [a] := fun _ => Iff.rfl
  refine climbs_parentChain hseen ?_
  rintro ⟨p, hp⟩
  have hlt := card_unseen_cons_lt hp (List.not_mem_nil (a := a))
  have hle := card_unseen_le (g := g) []
  omega

/-! ## Collecting -/

theorem Collects.unique (h : g.Collects found i r) (h' : g.Collects found i r') : r = r' := by
  induction h with
  | done hle =>
    cases h' with
    | done => rfl
    | next hnext => exact absurd (List.getElem?_eq_some_iff.mp hnext).1 (Nat.not_lt.mpr hle)
  | next hnext _ ih =>
    cases h' with
    | done hle => exact absurd (List.getElem?_eq_some_iff.mp hnext).1 (Nat.not_lt.mpr hle)
    | next hnext' hrest =>
      obtain rfl := Option.some.inj (hnext.symm.trans hnext')
      exact ih hrest

theorem nodup_foldl_pushChild (a : ConceptId) (l : List (ConceptId × ConceptId))
    (hfound : found.Nodup) : (l.foldl (pushChild a) found).Nodup := by
  induction l generalizing found with
  | nil => exact hfound
  | cons e l ih =>
    refine ih ?_
    rw [pushChild]
    split
    · next h => exact List.concat_eq_append ▸ hfound.concat h.2
    · exact hfound

theorem Collects.nodup (h : g.Collects found i r) (hfound : found.Nodup) : r.Nodup := by
  induction h with
  | done => exact hfound
  | next _ _ ih => exact ih (nodup_foldl_pushChild _ _ hfound)

/-- Entries of different keys: none is left out because one before it has been found. -/
theorem foldl_pushChild (a : ConceptId) {l : List (ConceptId × ConceptId)}
    (hl : (l.map Prod.fst).Nodup) (found : List ConceptId) : l.foldl (pushChild a) found =
      found ++ (l.filter fun e => e.2 = a && e.1 ∉ found).map Prod.fst := by
  induction l generalizing found with
  | nil => exact (List.append_nil _).symm
  | cons e l ih =>
    obtain ⟨he, hl⟩ := List.nodup_cons.mp hl
    rw [List.foldl_cons, ih hl, pushChild]
    by_cases hpush : e.2 = a ∧ e.1 ∉ found
    · have hrest : l.filter (fun d => d.2 = a && d.1 ∉ found ++ [e.1]) =
          l.filter fun d => d.2 = a && d.1 ∉ found := by
        refine List.filter_congr fun d hd => ?_
        have hne : d.1 ≠ e.1 := fun heq => he (heq ▸ List.mem_map_of_mem hd)
        simp [hne]
      rw [if_pos hpush, hrest, List.filter_cons_of_pos (by simpa using hpush), List.map_cons,
        List.append_assoc, List.singleton_append]
    · rw [if_neg hpush, List.filter_cons_of_neg (by simpa using hpush)]

theorem foldl_pushChild_parents (a : ConceptId) (found : List ConceptId) :
    g.parents.entries.foldl (pushChild a) found = found ++ g.newChildren found a :=
  foldl_pushChild a g.parents.nodup_keys found

/-- The loop returns what it has found and what is below the part that it has not walked. -/
theorem collects_descend {n : Nat} {walked queue : List ConceptId}
    (hn : (g.unseen (walked ++ queue)).card + queue.length ≤ n) :
    g.Collects (walked ++ queue) walked.length
      (walked ++ queue ++ g.descend n (walked ++ queue) queue) := by
  induction n generalizing walked queue with
  | zero =>
    obtain rfl : queue = [] := List.length_eq_zero_iff.mp (by omega)
    rw [descend, List.append_nil, List.append_nil]
    exact .done (Nat.le_refl _)
  | succ n ih =>
    cases queue with
    | nil =>
      rw [descend, List.append_nil, List.append_nil]
      · exact .done (Nat.le_refl _)
      · simp
    | cons a queue =>
      -- the loop stands at the first type that it has not walked over
      refine .next (a := a) (by simp) ?_
      rw [foldl_pushChild_parents, descend, ← List.append_assoc]
      have hcard := card_unseen_append_newChildren (g := g) (walked ++ a :: queue) a
      have hsplit : walked ++ a :: queue ++ g.newChildren (walked ++ a :: queue) a =
          walked ++ [a] ++ (queue ++ g.newChildren (walked ++ a :: queue) a) := by simp
      rw [hsplit] at hcard ⊢
      have hlength : walked.length + 1 = (walked ++ [a]).length := by simp
      rw [hlength]
      refine ih ?_
      rw [List.length_cons] at hn
      rw [List.length_append]
      omega

theorem collects_subtypes (g : Graph) (b : ConceptId) : g.Collects [b] 0 (g.subtypes b) := by
  have hle : (g.unseen ([] ++ [b])).card + [b].length ≤ g.parents.size + 1 :=
    Nat.succ_le_succ (card_unseen_le [b])
  exact collects_descend hle

/-! ## The two directions -/

/-- Both loops end, each with one list only: the lists have no duplicates and start with the type
itself, and what they say of two types is converse, whatever the parents are. -/
theorem supertypes_subtypes_converse (g : Graph) (a b : ConceptId) :
    ((∀ r, g.Climbs [a] a r ↔ r = g.supertypes a) ∧ ∀ r, g.Collects [b] 0 r ↔ r = g.subtypes b) ∧
    ((g.supertypes a).Nodup ∧ (g.subtypes b).Nodup) ∧
    ((g.supertypes a).head? = some a ∧ (g.subtypes b).head? = some b) ∧
    (b ∈ g.supertypes a ↔ a ∈ g.subtypes b) ∧ (a ∈ g.subtypes b ↔ g.Below a b) := by
  have hclimbs := climbs_supertypes g a
  have hcollects := collects_subtypes g b
  refine ⟨⟨fun r => ⟨fun h => h.unique hclimbs, ?_⟩, fun r => ⟨fun h => h.unique hcollects, ?_⟩⟩,
    ⟨hclimbs.nodup (List.nodup_singleton a), hcollects.nodup (List.nodup_singleton b)⟩, ⟨rfl, rfl⟩,
    mem_supertypes.trans mem_subtypes.symm, mem_subtypes⟩
  · rintro rfl
    exact hclimbs
  · rintro rfl
    exact hcollects

/-- A chain that runs into a cycle. -/
example :
    let g : Graph := { parents := .ofList [(⟨"a"⟩, ⟨"b"⟩), (⟨"b"⟩, ⟨"c"⟩), (⟨"c"⟩, ⟨"b"⟩)] }
    g.supertypes ⟨"a"⟩ = [⟨"a"⟩, ⟨"b"⟩, ⟨"c"⟩] ∧ g.subtypes ⟨"c"⟩ = [⟨"c"⟩, ⟨"b"⟩, ⟨"a"⟩] := by
  decide +kernel

end GraphInference.Graph
