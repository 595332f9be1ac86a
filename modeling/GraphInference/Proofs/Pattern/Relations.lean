import GraphInference.Proofs.Graph.Record
import GraphInference.Proofs.Traversal.Transparency

/-!
# What is found of a relation pattern

A relation pattern asks for a relation with places for its players. A traversal knows the places of a
relation as castings, which tell relation, role and player and nothing of the position in the list that
the relation was added with. So it asks the players to stand for entries of this list that differ
(`HasEntries`), where the pattern asks them to stand at positions that differ (`HasPlaces`). One follows
from the other as long as no entry is repeated: `Conjunction.exists_execute_relation`.
-/

namespace GraphInference

/-! ## Places and entries -/

/-- The entry of a relation's list is of the player, and of its role if the pattern states one. -/
def RolePlayer.Suits (look : Var → Option ConceptId) (p : RolePlayer) (q : Label × ConceptId) : Prop :=
  look p.player = some q.2 ∧ ∀ l, p.role = some l → q.1 = l

/-- The players suit pairwise different positions of a relation's list. -/
def HasPlaces (look : Var → Option ConceptId) (ps : List RolePlayer)
    (players : List (Label × ConceptId)) : Prop :=
  ∃ js : List Nat, js.Nodup ∧
    List.Forall₂ (fun p j => ∃ q, players[j]? = some q ∧ p.Suits look q) ps js

/-- The players suit pairwise different entries of a relation's list. -/
def HasEntries (look : Var → Option ConceptId) (ps : List RolePlayer)
    (players : List (Label × ConceptId)) : Prop :=
  ∃ qs : List (Label × ConceptId), qs.Nodup ∧
    List.Forall₂ (fun p q => q ∈ players ∧ p.Suits look q) ps qs

/-- Lists in step with one list are in step with each other. -/
theorem exists_forall₂_of_forall₂ {α β γ : Type} {r : α → β → Prop} (r' : α → γ → Prop)
    (t : β → γ → Prop) {l : List α} {m : List β} (h : List.Forall₂ r l m)
    (hstep : ∀ a b, r a b → ∃ c, r' a c ∧ t b c) :
    ∃ n : List γ, List.Forall₂ r' l n ∧ List.Forall₂ t m n := by
  induction h with
  | nil => exact ⟨[], .nil, .nil⟩
  | cons hab _ ih =>
    obtain ⟨c, hac, hbc⟩ := hstep _ _ hab
    obtain ⟨n, hr, ht⟩ := ih
    exact ⟨c :: n, .cons hac hr, .cons hbc ht⟩

section Lists

variable {look : Var → Option ConceptId} {ps : List RolePlayer} {players : List (Label × ConceptId)}

/-- Different entries stand at different positions. -/
theorem HasEntries.hasPlaces (h : HasEntries look ps players) : HasPlaces look ps players := by
  obtain ⟨qs, hnodup, hqs⟩ := h
  obtain ⟨js, hjs, hsame⟩ := exists_forall₂_of_forall₂
    (fun p j => ∃ q, players[j]? = some q ∧ p.Suits look q)
    (fun q j => players[j]? = some q ∧ players.idxOf q = j) hqs fun p q ⟨hmem, hsuits⟩ =>
      have hj : players[players.idxOf q]? = some q := List.getElem?_idxOf hmem
      ⟨players.idxOf q, ⟨q, hj, hsuits⟩, hj, rfl⟩
  refine ⟨js, (List.rel_nodup ⟨?_, ?_⟩ hsame).mp hnodup, hjs⟩
  · exact fun q q' j hq hq' => Option.some.inj (hq.1.symm.trans hq'.1)
  · exact fun q j j' hj hj' => hj.2.symm.trans hj'.2

/-- Different positions have different entries if no entry is repeated. -/
theorem HasPlaces.hasEntries (h : HasPlaces look ps players) (hplayers : players.Nodup) :
    HasEntries look ps players := by
  obtain ⟨js, hnodup, hjs⟩ := h
  obtain ⟨qs, hqs, hsame⟩ := exists_forall₂_of_forall₂
    (fun p q => q ∈ players ∧ p.Suits look q) (fun j q => players[j]? = some q) hjs
    fun p j ⟨q, hq, hsuits⟩ => ⟨q, ⟨List.mem_of_getElem? hq, hsuits⟩, hq⟩
  refine ⟨qs, (List.rel_nodup ⟨?_, ?_⟩ hsame).mp hnodup, hqs⟩
  · intro j j' q hj hj'
    obtain ⟨hlt, -⟩ := List.getElem?_eq_some_iff.mp hj
    exact (List.getElem?_inj hlt hplayers).mp (hj.trans hj'.symm)
  · exact fun j q q' hq hq' => Option.some.inj (hq.symm.trans hq')

end Lists

/-! ## Castings and entries -/

section Readings

variable {ops : List Graph.Operation} {look : Var → Option ConceptId} {x : Var} {ps : List RolePlayer}

/-- A player stands in a casting of the relation if it suits an entry that the relation was added with. -/
theorem stands_iff {r : ConceptId} (hx : look x = some r) {players : List (Label × ConceptId)}
    (hr : Graph.Records ops r players) {p : RolePlayer} {c : Casting} :
    (ops.foldl Graph.perform {}).Stands look x p.role p.player c ↔
      c.relation = r ∧ (c.role, c.player) ∈ players ∧ p.Suits look (c.role, c.player) := by
  constructor
  · rintro ⟨hplays, hrelation, hrole, hplayer⟩
    obtain rfl : r = c.relation := Option.some.inj (hx.symm.trans hrelation)
    obtain ⟨players', hr', hmem⟩ := Graph.exists_plays_iff_records.mp hplays
    obtain rfl := hr.unique hr'
    exact ⟨rfl, hmem, hplayer, hrole⟩
  · rintro ⟨rfl, hmem, hplayer, hrole⟩
    exact ⟨Graph.exists_plays_iff_records.mpr ⟨players, hr, hmem⟩, hx, hrole, hplayer⟩

/-- What a relation property says of a relation with a list of roles and players. -/
theorem reads_relation_iff_of_records {r : ConceptId} (hx : look x = some r)
    {players : List (Label × ConceptId)} (hr : Graph.Records ops r players) :
    (Property.relation ps).Reads (ops.foldl Graph.perform {}) look x ↔ HasEntries look ps players := by
  -- the castings of one relation and the entries of its list tell the same
  let tells (c : Casting) (q : Label × ConceptId) : Prop := c.relation = r ∧ (c.role, c.player) = q
  have hunique : Relator.BiUnique tells := by
    constructor
    · rintro ⟨_, _, _⟩ ⟨_, _, _⟩ q ⟨rfl, rfl⟩ ⟨rfl, h⟩
      cases h
      rfl
    · rintro c q q' ⟨-, rfl⟩ ⟨-, h⟩
      exact h
  constructor
  · rintro ⟨cs, hnodup, hcs⟩
    obtain ⟨qs, hqs, hsame⟩ := exists_forall₂_of_forall₂
      (fun p q => q ∈ players ∧ p.Suits look q) tells hcs fun p c hc =>
        have ⟨hrelation, hsuits⟩ := (stands_iff hx hr).mp hc
        ⟨_, hsuits, hrelation, rfl⟩
    exact ⟨qs, (List.rel_nodup hunique hsame).mp hnodup, hqs⟩
  · rintro ⟨qs, hnodup, hqs⟩
    obtain ⟨cs, hcs, hsame⟩ := exists_forall₂_of_forall₂
      (fun p c => (ops.foldl Graph.perform {}).Stands look x p.role p.player c) (fun q c => tells c q)
      hqs fun p q hq => ⟨⟨r, q.1, q.2⟩, (stands_iff hx hr).mpr ⟨rfl, hq⟩, rfl, rfl⟩
    exact ⟨cs, (List.rel_nodup hunique (hsame.flip)).mpr hnodup, hcs⟩

/-- A relation property holds of the relations that were added with entries for the players. -/
theorem reads_relation_iff (hps : ps ≠ []) :
    (Property.relation ps).Reads (ops.foldl Graph.perform {}) look x ↔
      ∃ r players, Graph.Records ops r players ∧ look x = some r ∧ HasEntries look ps players := by
  constructor
  · intro h
    obtain ⟨p, hp⟩ := List.exists_mem_of_ne_nil ps hps
    obtain ⟨cs, -, hcs⟩ := id h
    obtain ⟨c, -, hc⟩ := exists_of_forall₂_of_mem hcs hp
    obtain ⟨players, hr, -⟩ := Graph.exists_plays_iff_records.mp hc.plays
    exact ⟨_, players, hr, hc.relation, (reads_relation_iff_of_records hc.relation hr).mp h⟩
  · rintro ⟨r, players, hr, hx, hentries⟩
    exact (reads_relation_iff_of_records hx hr).mpr hentries

end Readings

/-! ## Relation patterns -/

namespace Conjunction

/-- Some binding gives the variables of the pattern the concepts that they stand for. -/
def Finds (c : Conjunction) (bs : List Binding) (look : Var → Option ConceptId) : Prop :=
  ∃ b ∈ bs, ∀ v, c.Names v → b.find? v = look v

/-- A plan finds the concepts of which the pattern holds. -/
theorem exists_execute_finds {g : Graph} (hg : g.Reachable) {c : Conjunction} {s t : Supply}
    (hfresh : c.FreshFrom s.vars) {p : Program}
    (hp : (Planner.planWithBound c .empty).Gives s p t) :
    ∃ bs, p.execute g .empty = .ok bs ∧ ∀ look, c.Finds bs look ↔ c.Reads g look := by
  obtain ⟨bs, hexecute, hsound, hcomplete⟩ := execute_plan hg hfresh hp
  have hnamed {v : Var} (hv : c.Names v) : ¬ FragmentSet.Hidden s.vars t.vars v := by
    rintro ⟨k, hk, -, rfl⟩
    exact hfresh k hk hv
  refine ⟨bs, hexecute, fun look => ⟨?_, fun h => ?_⟩⟩
  · rintro ⟨b, hb, hlook⟩
    obtain ⟨m, hm, hsame⟩ := hsound b hb
    exact hm.reads.congr fun v hv => (hsame v (hnamed hv)).symm.trans (hlook v hv)
  · obtain ⟨m, hm, hlook⟩ := exists_isMatch_of_reads h
    obtain ⟨b, hb, hsame⟩ := hcomplete m hm
    exact ⟨b, hb, fun v hv => (hsame v (hnamed hv)).trans (hlook v hv)⟩

/-- The pattern of a relation with players and further properties. -/
def relating (x : Var) (ps : List RolePlayer) (rest : List Property) : Conjunction :=
  ⟨[⟨x, .relation ps :: rest⟩]⟩

variable {ops : List Graph.Operation} {x : Var} {ps : List RolePlayer} {rest : List Property}

theorem reads_relating_iff {g : Graph} {look : Var → Option ConceptId} :
    (relating x ps rest).Reads g look ↔
      (Property.relation ps).Reads g look x ∧ ∀ p ∈ rest, p.Reads g look x := by
  simp only [Conjunction.Reads, relating, List.forall_mem_singleton, Statement.Reads, List.forall_mem_cons]

/-- Of a relation pattern are found the relations, added to the graph at some time, of whose lists the
players suit pairwise different entries. The players of what is found suit pairwise different positions,
and if the list of a relation repeats no entry, this is all it takes to be found. -/
theorem exists_execute_relation (hps : ps ≠ []) {s : Supply}
    (hfresh : (relating x ps rest).FreshFrom s.vars) :
    ∃ p t bs, (Planner.planWithBound (relating x ps rest) .empty).Gives s p t ∧
      p.execute (ops.foldl Graph.perform {}) .empty = .ok bs ∧ ∀ look,
        ((relating x ps rest).Finds bs look ↔
          (∀ p ∈ rest, p.Reads (ops.foldl Graph.perform {}) look x) ∧
            ∃ r players, Graph.Records ops r players ∧ look x = some r ∧ HasEntries look ps players) ∧
        ∀ r players, Graph.Records ops r players → look x = some r →
          ((relating x ps rest).Finds bs look → HasPlaces look ps players) ∧
          (players.Nodup → (∀ p ∈ rest, p.Reads (ops.foldl Graph.perform {}) look x) →
            HasPlaces look ps players → (relating x ps rest).Finds bs look) := by
  have hfounded : ∀ st ∈ (relating x ps rest).statements, st.IsFounded :=
    List.forall_mem_singleton.mpr ⟨_, .head _, fun h => hps (Property.relation.inj h)⟩
  obtain ⟨p, t, hp⟩ := exists_planWithBound_iff (u := s).mpr hfounded
  obtain ⟨bs, hexecute, hfinds⟩ := exists_execute_finds ⟨ops, rfl⟩ hfresh hp
  refine ⟨p, t, bs, hp, hexecute, fun look => ⟨?_, fun r players hr hx => ?_⟩⟩
  · rw [hfinds, reads_relating_iff, reads_relation_iff hps, and_comm]
  · rw [hfinds, reads_relating_iff, reads_relation_iff_of_records hx hr]
    exact ⟨fun h => h.1.hasPlaces, fun hplayers hrest h => ⟨h.hasEntries hplayers, hrest⟩⟩

end Conjunction

/-! ## A pair of two persons and a pair of one -/

namespace SelfPairing

open Conjunction

/-- Two persons and a relation with two players in the same role. -/
def history (a b : String) : List Graph.Operation :=
  [.relationType ⟨"pairing"⟩ [⟨"member"⟩], .entityType ⟨"person"⟩, .entity ⟨"person"⟩, .entity ⟨"person"⟩,
    .relation ⟨"pairing"⟩ [(⟨"member"⟩, ⟨a⟩), (⟨"member"⟩, ⟨b⟩)]]

def members : List RolePlayer :=
  [⟨some ⟨"member"⟩, .named "x"⟩, ⟨some ⟨"member"⟩, .named "y"⟩]

/-- `$r (member: $x, member: $y) isa pairing;` -/
def pattern : Conjunction :=
  relating (.named "r") members [.isa (.label ⟨"pairing"⟩)]

/-- The relation and its two players. -/
def look (a b : String) (v : Var) : Option ConceptId :=
  if v = .named "r" then some ⟨"V6"⟩
  else if v = .named "x" then some ⟨a⟩
  else if v = .named "y" then some ⟨b⟩
  else none

theorem freshFrom_pattern (n : Nat) : pattern.FreshFrom n := by
  rintro k - ⟨s, hs, p, hp, hv⟩
  obtain rfl := List.mem_singleton.mp hs
  rcases List.mem_cons.mp hp with rfl | hp
  · obtain ⟨q, hq, hv | hv⟩ := hv
    · exact Var.generated_ne_named k _ hv
    · rcases List.mem_cons.mp hq with rfl | hq
      · exact Var.generated_ne_named k _ hv
      · cases List.mem_singleton.mp hq
        exact Var.generated_ne_named k _ hv
  · cases List.mem_singleton.mp hp
    exact Var.generated_ne_named k _ hv

/-- The history ends with the relation, of the type that is asked for. -/
theorem recorded (a b : String) (h : ((((history a b).take 4).foldl Graph.perform {}).addRelation
        ⟨"pairing"⟩ [(⟨"member"⟩, ⟨a⟩), (⟨"member"⟩, ⟨b⟩)]).toOption.map Prod.fst = some ⟨"V6"⟩ ∧
      ⟨⟨"T2"⟩, .relationType, some ⟨"pairing"⟩, none, none⟩ ∈
        ((history a b).foldl Graph.perform {}).concepts ∧
      ⟨⟨"V6"⟩, .relation, none, some ⟨"T2"⟩, none⟩ ∈ ((history a b).foldl Graph.perform {}).concepts) :
    Graph.Records (history a b) ⟨"V6"⟩ [(⟨"member"⟩, ⟨a⟩), (⟨"member"⟩, ⟨b⟩)] ∧
      ∀ p ∈ [Property.isa (.label ⟨"pairing"⟩)],
        p.Reads ((history a b).foldl Graph.perform {}) (look a b) (.named "r") := by
  obtain ⟨hadded, htype, hpair⟩ := h
  obtain ⟨⟨r, g⟩, hr, rfl⟩ := Option.map_eq_some_iff.mp hadded
  exact ⟨⟨(history a b).take 4, _, [], rfl, .relation (Except.toOption_eq_some_iff.mp hr)⟩,
    List.forall_mem_singleton.mpr ⟨⟨"V6"⟩, _, htype, rfl, ⟨_, hpair, rfl, _, rfl, .refl⟩, rfl⟩⟩

theorem hasPlaces (a b : String) :
    HasPlaces (look a b) members [(⟨"member"⟩, ⟨a⟩), (⟨"member"⟩, ⟨b⟩)] :=
  ⟨[0, 1], by decide, .cons ⟨_, rfl, rfl, fun _ h => Option.some.inj h⟩
    (.cons ⟨_, rfl, rfl, fun _ h => Option.some.inj h⟩ .nil)⟩

/-- A pair of two persons is found. -/
theorem exists_execute_relation_two : ∃ p t bs, (Planner.planWithBound pattern .empty).Gives {} p t ∧
    p.execute ((history "V4" "V5").foldl Graph.perform {}) .empty = .ok bs ∧
      pattern.Finds bs (look "V4" "V5") := by
  obtain ⟨hrecords, hreads⟩ := recorded "V4" "V5" (by decide +kernel)
  have hnodup : [((⟨"member"⟩ : Label), (⟨"V4"⟩ : ConceptId)), (⟨"member"⟩, ⟨"V5"⟩)].Nodup := by decide +kernel
  have hmembers : members ≠ [] := List.cons_ne_nil _ _
  have hfresh : (relating (.named "r") members [.isa (.label ⟨"pairing"⟩)]).FreshFrom ({} : Supply).vars :=
    freshFrom_pattern 0
  obtain ⟨p, t, bs, hp, hexecute, hbs⟩ := exists_execute_relation hmembers hfresh
  exact ⟨p, t, bs, hp, hexecute, ((hbs _).2 _ _ hrecords rfl).2 hnodup hreads (hasPlaces _ _)⟩

/-- Running the plan of the pattern on a graph. -/
def execute (g : Graph) : Except InferenceError (List Binding) :=
  ((Planner.planWithBound pattern .empty).run {}).1.bind fun p => p.execute g .empty

/-- A pair of one person with itself has a place for each of the players, and nothing is found. -/
theorem not_finds_pair_of_one :
    (∃ r players, Graph.Records (history "V4" "V4") r players ∧ look "V4" "V4" (.named "r") = some r ∧
      HasPlaces (look "V4" "V4") members players) ∧
    (∀ p ∈ [Property.isa (.label ⟨"pairing"⟩)],
      p.Reads ((history "V4" "V4").foldl Graph.perform {}) (look "V4" "V4") (.named "r")) ∧
    ∀ p t bs, (Planner.planWithBound pattern .empty).Gives {} p t →
      p.execute ((history "V4" "V4").foldl Graph.perform {}) .empty = .ok bs →
        ¬ pattern.Finds bs (look "V4" "V4") := by
  obtain ⟨hrecords, hreads⟩ := recorded "V4" "V4" (by decide +kernel)
  have hexecute : (execute ((history "V4" "V4").foldl Graph.perform {})).toOption = some [] := by decide +kernel
  refine ⟨⟨_, _, hrecords, rfl, hasPlaces _ _⟩, hreads, fun p t bs hp hbs => ?_⟩
  have hsame : execute ((history "V4" "V4").foldl Graph.perform {}) = .ok bs := by
    rw [execute, hp, ← hbs]
    rfl
  rw [hsame] at hexecute
  obtain rfl := Option.some.inj hexecute
  rintro ⟨b, hb, -⟩
  cases hb

end SelfPairing

end GraphInference
