import GraphInference.Proofs.Answer.Joins

/-!
# Natural joins

Joining list after list onto the row of no answers tries every tuple with one answer of each list, in the
lexicographic order of their positions (`joinLists_eq_filterMap`). Only the row so far is tested against the
next answer, but as it binds what its answers bind (`Unites.extend?`), the tuples that are kept are those
whose answers agree pairwise (`isSome_extend?_empty_iff`). `joinLists_is_natural` says which rows there are
and what another order of the lists does to them.
-/

namespace GraphInference

/-! ## Lists in step -/

theorem forall₂_trans {β γ δ : Type} {r : β → γ → Prop} {r' : γ → δ → Prop} {r'' : β → δ → Prop}
    (hr : ∀ {b c d}, r b c → r' c d → r'' b d) {l : List β} {m : List γ} {n : List δ}
    (h : List.Forall₂ r l m) (h' : List.Forall₂ r' m n) : List.Forall₂ r'' l n := by
  induction h generalizing n with
  | nil =>
    cases h'
    exact .nil
  | cons hbc _ ih =>
    cases h' with
    | cons hcd h' => exact .cons (hr hbc hcd) (ih h')

/-- What is dropped on the right for want of a value is dropped on the left. -/
theorem forall₂_filter_filterMap {α β γ : Type} {r : α → β → Prop} {f : β → Option γ} {p : α → Prop}
    [DecidablePred p] {l : List α} {m : List β} (h : List.Forall₂ r l m)
    (hp : ∀ a b, r a b → (p a ↔ (f b).isSome = true)) :
    List.Forall₂ (fun a c => ∃ b, r a b ∧ f b = some c) (l.filter p) (m.filterMap f) := by
  induction h with
  | nil => exact .nil
  | @cons a b l m hab _ ih =>
    by_cases ha : p a
    · obtain ⟨c, hc⟩ := Option.isSome_iff_exists.mp ((hp a b hab).mp ha)
      rw [List.filterMap_cons_some hc, List.filter_cons, if_pos (decide_eq_true ha)]
      exact .cons ⟨b, hab, hc⟩ ih
    · have hc : f b = none := by simpa [hp a b hab] using ha
      rw [List.filterMap_cons_none hc, List.filter_cons, if_neg (by simpa using ha)]
      exact ih

/-! ## Tuples -/

section Tuples

variable {α : Type}

/-- One member of each list, in every way; later lists vary faster. -/
def tuples : List (List α) → List (List α)
  | [] => [[]]
  | l :: ls => l.flatMap fun a => (tuples ls).map (a :: ·)

/-- The members of a tuple stand at the positions, each in its list. -/
inductive Picks : List (List α) → List Nat → List α → Prop
  | nil : Picks [] [] []
  | cons {l : List α} {ls : List (List α)} {i : Nat} {is : List Nat} {a : α} {as : List α}
    (h : l[i]? = some a) (hs : Picks ls is as) : Picks (l :: ls) (i :: is) (a :: as)

variable {ls ls' : List (List α)} {is : List Nat} {as bs : List α}

theorem Picks.unique (h : Picks ls is as) (h' : Picks ls is bs) : as = bs := by
  induction h generalizing bs with
  | nil =>
    cases h'
    rfl
  | cons h _ ih =>
    cases h' with
    | cons h' hs' =>
      obtain rfl := Option.some.inj (h.symm.trans h')
      rw [ih hs']

theorem length_of_mem_tuples (h : as ∈ tuples ls) : as.length = ls.length := by
  induction ls generalizing as with
  | nil => exact congrArg List.length (List.mem_singleton.mp h)
  | cons l ls ih =>
    obtain ⟨a, -, h⟩ := List.mem_flatMap.mp h
    obtain ⟨as, has, rfl⟩ := List.mem_map.mp h
    rw [List.length_cons, List.length_cons, ih has]

/-- The positions of a list and what stands there. -/
theorem forall₂_range_getElem? (l : List α) :
    List.Forall₂ (fun i a => l[i]? = some a) (List.range l.length) l :=
  List.forall₂_iff_get.mpr ⟨List.length_range, fun i _ h => by simp [h]⟩

/-- The tuples come in the lexicographic order of their positions, each position tuple once. -/
theorem exists_positions_tuples (ls : List (List α)) : ∃ ps : List (List Nat),
    ps.Pairwise (· < ·) ∧ (∀ p, p ∈ ps ↔ ∃ as, Picks ls p as) ∧ List.Forall₂ (Picks ls) ps (tuples ls) := by
  induction ls with
  | nil =>
    refine ⟨[[]], List.pairwise_singleton _ _, fun p => List.mem_singleton.trans ?_, .cons .nil .nil⟩
    exact ⟨fun h => ⟨[], h ▸ .nil⟩, fun ⟨_, h⟩ => by cases h; rfl⟩
  | cons l ls ih =>
    obtain ⟨ps, hsorted, hmem, hpicks⟩ := ih
    refine ⟨(List.range l.length).flatMap fun i => ps.map (i :: ·), ?_, fun p => ?_, ?_⟩
    · refine List.pairwise_flatMap.mpr ⟨fun i _ => List.pairwise_map.mpr ?_, ?_⟩
      · exact hsorted.imp fun h => List.cons_lt_cons_iff.mpr (.inr ⟨rfl, h⟩)
      · refine List.pairwise_lt_range.imp fun {i j} hij x hx y hy => ?_
        obtain ⟨p, -, rfl⟩ := List.mem_map.mp hx
        obtain ⟨q, -, rfl⟩ := List.mem_map.mp hy
        exact List.cons_lt_cons_iff.mpr (.inl hij)
    · simp only [List.mem_flatMap, List.mem_range, List.mem_map, hmem]
      constructor
      · rintro ⟨i, hi, q, ⟨as, has⟩, rfl⟩
        exact ⟨l[i] :: as, .cons (List.getElem?_eq_getElem hi) has⟩
      · rintro ⟨_, h⟩
        cases h with
        | @cons _ _ i is a as h hs =>
          exact ⟨i, (List.getElem?_eq_some_iff.mp h).1, is, ⟨as, hs⟩, rfl⟩
    · refine List.rel_flatMap (forall₂_range_getElem? l) fun i a hi => ?_
      exact List.rel_map (fun is as has => Picks.cons hi has) hpicks

/-- In another order of the lists there are the same tuples, each member carried along with its list. -/
theorem exists_perm_tuples (h : ls.Perm ls') : ∃ ts, ts.Perm (tuples ls') ∧
    List.Forall₂ (fun as bs => (ls.zip as).Perm (ls'.zip bs)) (tuples ls) ts := by
  induction h with
  | nil => exact ⟨tuples [], .refl _, .cons (.refl _) .nil⟩
  | @cons l ls ls' _ ih =>
    obtain ⟨ts, hperm, hts⟩ := ih
    refine ⟨l.flatMap fun a => ts.map (a :: ·), .flatMap_left l fun a _ => hperm.map _, ?_⟩
    refine List.rel_flatMap (List.forall₂_same.mpr fun _ _ => rfl) fun a b hab => ?_
    subst hab
    exact List.rel_map (fun as bs has => has.cons (l, a)) hts
  | swap l m ls =>
    -- the first two lists are run through in the other order
    refine ⟨m.flatMap fun b => l.flatMap fun a => (tuples ls).map fun as => a :: b :: as, ?_, ?_⟩
    · refine Multiset.coe_eq_coe.mp ?_
      have hswap := Multiset.bind_bind (m : Multiset α) (l : Multiset α)
        (f := fun b a => ((tuples ls).map fun as => a :: b :: as : Multiset (List α)))
      simp only [Multiset.coe_bind] at hswap
      rw [hswap]
      simp [tuples, List.map_flatMap, Function.comp_def]
    · simp only [tuples, List.map_flatMap, List.map_map]
      refine List.rel_flatMap (List.forall₂_same.mpr fun _ _ => rfl) fun b b' hb => ?_
      subst hb
      refine List.rel_flatMap (List.forall₂_same.mpr fun _ _ => rfl) fun a a' ha => ?_
      subst ha
      refine List.forall₂_map_left_iff.mpr (List.forall₂_map_right_iff.mpr ?_)
      exact List.forall₂_same.mpr fun as _ => .swap (l, a) (m, b) _
  | trans _ _ ih ih' =>
    obtain ⟨ts, hperm, hts⟩ := ih
    obtain ⟨us, hperm', hus⟩ := ih'
    obtain ⟨vs, hvs, hvs'⟩ := List.perm_comp_forall₂ hperm hus
    exact ⟨vs, hvs'.trans hperm', forall₂_trans (fun h h' => h.trans h') hts hvs⟩

end Tuples

/-! ## Agreement -/

namespace Binding

/-- The bindings give no variable two concepts. -/
def Agrees (b c : Binding) : Prop :=
  ∀ v i j, b.find? v = some i → c.find? v = some j → i = j

theorem Agrees.symm {b c : Binding} (h : b.Agrees c) : c.Agrees b :=
  fun v i j hi hj => (h v j i hj hi).symm

/-- Bindings that agree can be merged. -/
theorem Agrees.exists_merge? {b c : Binding} (h : b.Agrees c) : ∃ m, merge? b c = some m := by
  refine ⟨.ofList (b.entries ++ c.entries), merge?_eq_some_iff.mpr ⟨h, fun v i => ?_⟩⟩
  rw [SortedMap.find?_ofList, List.mem_append, ← SortedMap.find?_eq_some_iff,
    ← SortedMap.find?_eq_some_iff]
  intro v i j hi hj
  simp only [List.mem_append, ← SortedMap.find?_eq_some_iff] at hi hj
  rcases hi with hi | hi <;> rcases hj with hj | hj
  · exact Option.some.inj (hi.symm.trans hj)
  · exact h v i j hi hj
  · exact (h v j i hj hi).symm
  · exact Option.some.inj (hi.symm.trans hj)

end Binding

/-! ## Rows -/

namespace JoinRow

variable {row row' : JoinRow} {rows : List JoinRow} {lists lists' : List (List Answer)} {as : List Answer}
  {a : Answer}

/-- The rows of one answer from each list, as far as they agree. -/
def joinLists (lists : List (List Answer)) : List JoinRow :=
  lists.foldl join [empty]

/-- The row with one more answer, if they agree. -/
def add? (row : JoinRow) (a : Answer) : Option JoinRow :=
  (Binding.merge? row.binding a.binding).map fun b => ⟨b, row.answers ++ [a]⟩

/-- The row with more answers, one after the other. -/
def extend? (row : JoinRow) (as : List Answer) : Option JoinRow :=
  as.foldlM add? row

theorem filterMap_extend?_cons (ts : List (List Answer)) :
    (ts.map (a :: ·)).filterMap row.extend? =
      ((row.add? a).map fun row' => ts.filterMap row'.extend?).getD [] := by
  have hcons (as : List Answer) : row.extend? (a :: as) = (row.add? a).bind (·.extend? as) := List.foldlM_cons
  rw [List.filterMap_map]
  simp only [Function.comp_def, hcons]
  cases row.add? a <;> simp

/-- Joining extends every row by every tuple. -/
theorem foldl_join (rows : List JoinRow) (lists : List (List Answer)) :
    lists.foldl join rows = rows.flatMap fun row => (tuples lists).filterMap row.extend? := by
  induction lists generalizing rows with
  | nil =>
    have hone (row : JoinRow) : (tuples []).filterMap row.extend? = [row] := rfl
    simp [hone]
  | cons l lists ih =>
    rw [List.foldl_cons, ih]
    show (rows.flatMap fun row => l.filterMap row.add?).flatMap _ = _
    rw [List.flatMap_assoc]
    refine List.flatMap_congr fun row _ => ?_
    rw [tuples, List.filterMap_flatMap, List.filterMap_eq_flatMap_toList, List.flatMap_assoc]
    refine List.flatMap_congr fun a _ => ?_
    rw [filterMap_extend?_cons]
    cases row.add? a <;> simp

theorem joinLists_eq_filterMap (lists : List (List Answer)) :
    joinLists lists = (tuples lists).filterMap empty.extend? := by
  rw [joinLists, foldl_join, List.flatMap_singleton]

theorem add?_eq_some_iff : row.add? a = some row' ↔ row.binding.Agrees a.binding ∧
    row'.answers = row.answers ++ [a] ∧
      ∀ v i, row'.binding.find? v = some i ↔ row.binding.find? v = some i ∨ a.binding.find? v = some i := by
  obtain ⟨b', as'⟩ := row'
  simp only [add?, Option.map_eq_some_iff, mk.injEq, Binding.merge?_eq_some_iff]
  constructor
  · rintro ⟨_, ⟨hagree, hfind⟩, rfl, rfl⟩
    exact ⟨hagree, rfl, hfind⟩
  · rintro ⟨hagree, rfl, hfind⟩
    exact ⟨b', ⟨hagree, hfind⟩, rfl, rfl⟩

/-- No two of the answers give a variable different concepts. -/
def Agreeing (as : List Answer) : Prop :=
  as.Pairwise fun a b => a.binding.Agrees b.binding

/-- The row binds what its answers bind. -/
def Unites (row : JoinRow) : Prop :=
  ∀ v i, row.binding.find? v = some i ↔ ∃ a ∈ row.answers, a.binding.find? v = some i

theorem extend?_cons_eq_some_iff : row.extend? (a :: as) = some row' ↔
    ∃ mid, row.add? a = some mid ∧ mid.extend? as = some row' := by
  rw [extend?, List.foldlM_cons]
  exact Option.bind_eq_some_iff

/-- A row is extended by answers that agree with it and with each other only. -/
theorem agreeing_of_extend? (h : row.extend? as = some row') :
    (∀ a ∈ as, row.binding.Agrees a.binding) ∧ Agreeing as := by
  induction as generalizing row with
  | nil => exact ⟨fun _ h => (nomatch h), .nil⟩
  | cons a as ih =>
    obtain ⟨mid, hmid, h⟩ := extend?_cons_eq_some_iff.mp h
    obtain ⟨hagree, -, hfind⟩ := add?_eq_some_iff.mp hmid
    obtain ⟨hmids, hpairs⟩ := ih h
    refine ⟨List.forall_mem_cons.mpr ⟨hagree, fun b hb v i j hi hj => ?_⟩,
      List.pairwise_cons.mpr ⟨fun b hb v i j hi hj => ?_, hpairs⟩⟩
    · exact hmids b hb v i j ((hfind v i).mpr (.inl hi)) hj
    · exact hmids b hb v i j ((hfind v i).mpr (.inr hi)) hj

/-- It can be extended by all such answers. -/
theorem exists_extend? (h : ∀ a ∈ as, row.binding.Agrees a.binding) (has : Agreeing as) :
    ∃ row', row.extend? as = some row' := by
  induction as generalizing row with
  | nil => exact ⟨row, rfl⟩
  | cons a as ih =>
    obtain ⟨hagree, hagrees⟩ := List.forall_mem_cons.mp h
    obtain ⟨hpair, hpairs⟩ := List.pairwise_cons.mp has
    obtain ⟨m, hm⟩ := hagree.exists_merge?
    have hmid : row.add? a = some ⟨m, row.answers ++ [a]⟩ := by rw [add?, hm]; rfl
    obtain ⟨-, -, hfind⟩ := add?_eq_some_iff.mp hmid
    obtain ⟨row', hrow'⟩ := ih (fun b hb v i j hi hj => ((hfind v i).mp hi).elim
      (fun hi => hagrees b hb v i j hi hj) fun hi => hpair b hb v i j hi hj) hpairs
    exact ⟨row', extend?_cons_eq_some_iff.mpr ⟨_, hmid, hrow'⟩⟩

theorem unites_empty : empty.Unites := by
  intro v i
  simp [empty]

/-- An extended row binds what the answers before and after bind. -/
theorem Unites.extend? (hunites : row.Unites) (h : row.extend? as = some row') :
    row'.answers = row.answers ++ as ∧ row'.Unites := by
  induction as generalizing row with
  | nil =>
    obtain rfl := Option.some.inj h
    exact ⟨(List.append_nil _).symm, hunites⟩
  | cons a as ih =>
    obtain ⟨mid, hmid, h⟩ := extend?_cons_eq_some_iff.mp h
    obtain ⟨-, hanswers, hfind⟩ := add?_eq_some_iff.mp hmid
    have hmidUnites : mid.Unites := fun v i => by
      simp only [hfind, hunites v i, hanswers, List.mem_append, List.mem_singleton, or_and_right, exists_or,
        exists_eq_left]
    obtain ⟨hanswers', hrow'⟩ := ih hmidUnites h
    exact ⟨by rw [hanswers', hanswers, List.append_assoc, List.singleton_append], hrow'⟩

theorem isSome_extend?_empty_iff : (empty.extend? as).isSome = true ↔ Agreeing as := by
  rw [Option.isSome_iff_exists]
  exact ⟨fun ⟨_, h⟩ => (agreeing_of_extend? h).2, exists_extend? fun _ _ v i j hi _ => nomatch hi⟩

/-- Rows with the same answers, in whichever order, bind the same. -/
theorem Unites.binding_eq (h : row.Unites) (h' : row'.Unites) (hperm : row.answers.Perm row'.answers) :
    row'.binding = row.binding := by
  refine SortedMap.ext_find? fun v => Option.ext fun i => ?_
  rw [h, h']
  exact exists_congr fun a => and_congr_left fun _ => hperm.mem_iff.symm

/-- In another order of the lists there are rows of the same bindings, each answer carried along with its
list. -/
theorem exists_perm_joinLists (hperm : lists.Perm lists') : ∃ rows, rows.Perm (joinLists lists') ∧
    List.Forall₂ (fun row row' => row'.binding = row.binding ∧
      (lists.zip row.answers).Perm (lists'.zip row'.answers)) (joinLists lists) rows := by
  obtain ⟨ts, hts, hcarried⟩ := exists_perm_tuples hperm
  refine ⟨ts.filterMap empty.extend?, joinLists_eq_filterMap lists' ▸ hts.filterMap _, ?_⟩
  rw [joinLists_eq_filterMap]
  have hsnd {ls : List (List Answer)} {as : List Answer} (h : as ∈ tuples ls) : (ls.zip as).map Prod.snd = as :=
    List.map_snd_zip (length_of_mem_tuples h).le
  have hpermuted : List.Forall₂ (fun as bs => as.Perm bs ∧ (lists.zip as).Perm (lists'.zip bs))
      (tuples lists) ts := by
    refine forall₂_imp_of_mem_mem hcarried fun as has bs hbs h => ⟨?_, h⟩
    have hmap := h.map Prod.snd
    rwa [hsnd has, hsnd (hts.mem_iff.mp hbs)] at hmap
  refine List.rel_filterMap (fun as bs h => ?_) hpermuted
  have hagreeing : Agreeing as ↔ Agreeing bs := h.1.pairwise_iff fun hab => hab.symm
  rw [← isSome_extend?_empty_iff, ← isSome_extend?_empty_iff] at hagreeing
  cases has : empty.extend? as with
  | none =>
    have hbs : empty.extend? bs = none := by simpa [has] using hagreeing
    rw [hbs]
    exact .none
  | some row =>
    obtain ⟨row', hrow'⟩ := Option.isSome_iff_exists.mp (hagreeing.mp (by rw [has]; rfl))
    obtain ⟨hanswers, hunites⟩ := unites_empty.extend? has
    obtain ⟨hanswers', hunites'⟩ := unites_empty.extend? hrow'
    rw [empty, List.nil_append] at hanswers hanswers'
    rw [hrow']
    exact .some ⟨hunites.binding_eq hunites' (by rw [hanswers, hanswers']; exact h.1),
      by rw [hanswers, hanswers']; exact h.2⟩

/-- The rows are those of the tuples whose answers agree pairwise, in the lexicographic order of the tuples'
positions, one for each. Another order of the lists reorders the rows and, along with the lists, the answers of
each row, but leaves the bindings as they are. -/
theorem joinLists_is_natural (lists : List (List Answer)) :
    (∃ ps : List (List Nat), ps.Pairwise (· < ·) ∧
      (∀ p, p ∈ ps ↔ ∃ as, Picks lists p as ∧ Agreeing as) ∧
      List.Forall₂ (fun p row => Picks lists p row.answers ∧ row.Unites) ps (joinLists lists)) ∧
    ∀ lists', lists.Perm lists' →
      (∃ rows, rows.Perm (joinLists lists') ∧ List.Forall₂ (fun row row' => row'.binding = row.binding ∧
        (lists.zip row.answers).Perm (lists'.zip row'.answers)) (joinLists lists) rows) ∧
      ((joinLists lists).map binding).Perm ((joinLists lists').map binding) := by
  classical
  constructor
  · obtain ⟨ps, hsorted, hmem, hpicks⟩ := exists_positions_tuples lists
    refine ⟨ps.filter fun p => ∃ as, Picks lists p as ∧ Agreeing as, hsorted.filter _, fun p => ?_, ?_⟩
    · rw [List.mem_filter, hmem, decide_eq_true_eq]
      exact ⟨And.right, fun ⟨as, hp, has⟩ => ⟨⟨as, hp⟩, as, hp, has⟩⟩
    · rw [joinLists_eq_filterMap]
      refine (forall₂_filter_filterMap hpicks fun p as hp => ?_).imp fun p row ⟨as, hp, hrow⟩ => ?_
      · rw [isSome_extend?_empty_iff]
        exact ⟨fun ⟨bs, hbs, hagree⟩ => hp.unique hbs ▸ hagree, fun hagree => ⟨as, hp, hagree⟩⟩
      · obtain ⟨hanswers, hunites⟩ := unites_empty.extend? hrow
        rw [empty, List.nil_append] at hanswers
        exact ⟨hanswers ▸ hp, hunites⟩
  · intro lists' hperm
    obtain ⟨rows, hrows, hcarried⟩ := exists_perm_joinLists hperm
    refine ⟨⟨rows, hrows, hcarried⟩, ?_⟩
    have hbindings : (joinLists lists).map binding = rows.map binding := by
      refine List.forall₂_eq_eq_eq ▸ List.forall₂_map_left_iff.mpr (List.forall₂_map_right_iff.mpr ?_)
      exact hcarried.imp fun row row' h => h.1.symm
    exact hbindings ▸ hrows.map binding

end JoinRow

/-! ## A shared variable -/

namespace SharedVariable

/-- An answer that binds variables to vertices. -/
def answer (pairs : List (String × String)) : Answer :=
  .mk default (.ofList (pairs.map fun p => (.named p.1, ⟨p.2⟩))) .empty []

def parents : List Answer :=
  [answer [("x", "V1"), ("y", "V2")], answer [("x", "V3"), ("y", "V4")]]

def schools : List Answer :=
  [answer [("y", "V4"), ("z", "V5")], answer [("y", "V2"), ("z", "V5")], answer [("y", "V4"), ("z", "V6")]]

/-- Joined in the other order, parents and schools give the same bindings. -/
theorem joinLists_is_natural_swapped : [parents, schools].Perm [schools, parents] ∧
    (∃ ps : List (List Nat), ps.Pairwise (· < ·) ∧
      (∀ p, p ∈ ps ↔ ∃ as, Picks [parents, schools] p as ∧ JoinRow.Agreeing as) ∧
      List.Forall₂ (fun p row => Picks [parents, schools] p row.answers ∧ row.Unites) ps
        (JoinRow.joinLists [parents, schools])) ∧
    (∃ rows, rows.Perm (JoinRow.joinLists [schools, parents]) ∧
      List.Forall₂ (fun row row' => row'.binding = row.binding ∧
        ([parents, schools].zip row.answers).Perm ([schools, parents].zip row'.answers))
        (JoinRow.joinLists [parents, schools]) rows) ∧
    ((JoinRow.joinLists [parents, schools]).map JoinRow.binding).Perm
      ((JoinRow.joinLists [schools, parents]).map JoinRow.binding) := by
  have hperm : [parents, schools].Perm [schools, parents] := .swap schools parents []
  obtain ⟨hrows, horder⟩ := JoinRow.joinLists_is_natural [parents, schools]
  exact ⟨hperm, hrows, horder _ hperm⟩

/-- The first parents go to the second school only, the second parents to the two others. -/
example : (JoinRow.joinLists [parents, schools]).map JoinRow.binding =
    [answer [("x", "V1"), ("y", "V2"), ("z", "V5")], answer [("x", "V3"), ("y", "V4"), ("z", "V5")],
      answer [("x", "V3"), ("y", "V4"), ("z", "V6")]].map Answer.binding := by
  decide +kernel

end SharedVariable

end GraphInference
