import GraphInference.Proofs.Resolution.Invariant
import GraphInference.Proofs.Resolution.Renaming

/-!
# Renamed sets of bindings

When one set of bindings is another one with its variables renamed (`Binding.Images`). Unions, merges and joined
rows of such sets are such sets again, if the renaming is injective. Two pieces of work agree if their results are
related whenever both succeed (`Resolve.Agrees`); so joins agree if the answers that they join do
(`Reasoner.agrees_joinAllWith`).
-/

namespace GraphInference

/-! ## Bindings renamed twice -/

namespace Binding

variable {ρ ρ' τ τ' : Var → Var} {b left right m : Binding} {A A' B B' : Binding → Prop}

theorem relabel_congr (h : ∀ v, b.contains v = true → ρ v = τ v) : b.relabel ρ = b.relabel τ := by
  refine congrArg SortedMap.ofList (List.map_congr_left fun e he => ?_)
  have hfind : b.find? e.1 = some e.2 := SortedMap.find?_eq_some_iff.mpr he
  rw [h e.1 (SortedMap.contains_iff_isSome.mpr ⟨_, hfind⟩)]

theorem relabel_comp (hinj : ∀ v w, b.contains v = true → b.contains w = true → τ (ρ v) = τ (ρ w) → v = w) :
    (b.relabel ρ).relabel τ = b.relabel (τ ∘ ρ) := by
  have hρ (v w : Var) (hv : b.contains v = true) (hw : b.contains w = true) (heq : ρ v = ρ w) : v = w :=
    hinj v w hv hw (congrArg τ heq)
  have hτ (v w : Var) (hv : (b.relabel ρ).contains v = true) (hw : (b.relabel ρ).contains w = true)
      (heq : τ v = τ w) : v = w := by
    obtain ⟨x, hx, rfl⟩ := (contains_relabel_iff hρ).mp hv
    obtain ⟨y, hy, rfl⟩ := (contains_relabel_iff hρ).mp hw
    rw [hinj x y hx hy heq]
  refine SortedMap.ext_find? fun w => Option.ext fun i => ?_
  rw [find?_relabel hτ, find?_relabel (ρ := τ ∘ ρ) hinj]
  simp only [find?_relabel hρ, Function.comp_apply]
  constructor
  · rintro ⟨_, ⟨v, hv, rfl⟩, rfl⟩
    exact ⟨v, hv, rfl⟩
  · rintro ⟨v, hv, rfl⟩
    exact ⟨_, ⟨v, hv, rfl⟩, rfl⟩

/-- Renamings that commute on the variables of a binding commute on the binding. -/
theorem relabel_comm (hcomm : ∀ v, b.contains v = true → τ' (ρ v) = ρ' (τ v))
    (hinj : ∀ v w, b.contains v = true → b.contains w = true → ρ' (τ v) = ρ' (τ w) → v = w) :
    (b.relabel ρ).relabel τ' = (b.relabel τ).relabel ρ' := by
  have hinj' (v w : Var) (hv : b.contains v = true) (hw : b.contains w = true) (heq : τ' (ρ v) = τ' (ρ w)) :
      v = w := hinj v w hv hw (by rw [← hcomm v hv, ← hcomm w hw, heq])
  rw [relabel_comp hinj', relabel_comp hinj]
  exact relabel_congr hcomm

theorem relabel_injective (hρ : Function.Injective ρ) : Function.Injective (relabel ρ) := by
  obtain ⟨τ, hτ⟩ := hρ.hasLeftInverse
  intro b b' heq
  rw [← relabel_relabel (b := b) fun v _ => hτ v, heq, relabel_relabel fun v _ => hτ v]

/-- Bindings that are renamed alike merge exactly if they merge before. -/
theorem merge?_relabel_iff (hρ : Function.Injective ρ) :
    merge? (left.relabel ρ) (right.relabel ρ) = some m ↔ ∃ m', merge? left right = some m' ∧ m'.relabel ρ = m := by
  have hforth {b : Binding} (h : merge? left right = some b) :
      merge? (left.relabel ρ) (right.relabel ρ) = some (b.relabel ρ) :=
    merge?_relabel (V := fun _ => True) (fun _ _ _ _ heq => hρ heq) (fun _ _ => trivial) (fun _ _ => trivial) h
  constructor
  · intro h
    obtain ⟨τ, hτ⟩ := hρ.hasLeftInverse
    have hreach {b : Binding} (v : Var) (hv : (b.relabel ρ).contains v = true) : ∃ x, ρ x = v := by
      obtain ⟨x, -, hx⟩ := (contains_relabel_iff fun _ _ _ _ heq => hρ heq).mp hv
      exact ⟨x, hx⟩
    have hback := merge?_relabel (V := fun v => ∃ x, ρ x = v) (ρ := τ) (by
      rintro _ _ ⟨x, rfl⟩ ⟨y, rfl⟩ heq
      rw [hτ, hτ] at heq
      rw [heq]) hreach hreach h
    rw [relabel_relabel fun v _ => hτ v, relabel_relabel fun v _ => hτ v] at hback
    exact ⟨_, hback, Option.some.inj ((hforth hback).symm.trans h)⟩
  · rintro ⟨m', h, rfl⟩
    exact hforth h

/-! ## Renamed sets -/

/-- The second set has the bindings of the first one, renamed, and no others. -/
def Images (ρ : Var → Var) (B B' : Binding → Prop) : Prop :=
  ∀ b', B' b' ↔ ∃ b, B b ∧ b.relabel ρ = b'

namespace Images

theorem apply_iff (h : Images ρ B B') (hρ : Function.Injective ρ) : B' (b.relabel ρ) ↔ B b := by
  rw [h]
  exact ⟨fun ⟨_, hb, heq⟩ => relabel_injective hρ heq ▸ hb, fun hb => ⟨b, hb, rfl⟩⟩

theorem exists_iff (h : Images ρ B B') : (∃ b, B' b) ↔ ∃ b, B b :=
  ⟨fun ⟨b', hb'⟩ => ((h b').mp hb').imp fun _ => And.left, fun ⟨b, hb⟩ => ⟨_, (h _).mpr ⟨b, hb, rfl⟩⟩⟩

theorem congr {C C' : Binding → Prop} (h : Images ρ B B') (hB : ∀ b, C b ↔ B b) (hB' : ∀ b, C' b ↔ B' b) :
    Images ρ C C' := fun b' => by
  simp only [hB, hB', h b']

theorem or (h : Images ρ A A') (h' : Images ρ B B') : Images ρ (fun b => A b ∨ B b) fun b => A' b ∨ B' b :=
  fun b' => by simp only [h b', h' b', or_and_right, exists_or]

theorem none (h : ∀ b, ¬ B b) (h' : ∀ b, ¬ B' b) : Images ρ B B' :=
  fun b' => iff_of_false (h' b') fun ⟨b, hb, _⟩ => h b hb

/-- A set to which a renaming leads and from which another one leads back has the renamed bindings. -/
theorem of_inverse (hforth : ∀ b, B b → B' (b.relabel ρ)) (hback : ∀ b', B' b' → B (b'.relabel τ))
    (h : ∀ b', B' b' → (b'.relabel τ).relabel ρ = b') : Images ρ B B' := fun b' => by
  refine ⟨fun hb' => ⟨_, hback b' hb', h b' hb'⟩, ?_⟩
  rintro ⟨b, hb, rfl⟩
  exact hforth b hb

/-- What is renamed first by `τ` and then by `ρ'` is what is renamed first by `ρ` and then by `τ'`. -/
theorem relabel (h : Images ρ B B') (hcomm : ∀ b, B b → (b.relabel ρ).relabel τ' = (b.relabel τ).relabel ρ') :
    Images ρ' (fun b => ∃ d, B d ∧ d.relabel τ = b) fun b => ∃ d, B' d ∧ d.relabel τ' = b := fun b' => by
  constructor
  · rintro ⟨d', hd', rfl⟩
    obtain ⟨d, hd, rfl⟩ := (h d').mp hd'
    exact ⟨_, ⟨d, hd, rfl⟩, (hcomm d hd).symm⟩
  · rintro ⟨_, ⟨d, hd, rfl⟩, rfl⟩
    exact ⟨_, (h _).mpr ⟨d, hd, rfl⟩, hcomm d hd⟩

theorem merge (hρ : Function.Injective ρ) (h : Images ρ A A') (h' : Images ρ B B') :
    Images ρ (fun m => ∃ a b, A a ∧ B b ∧ merge? a b = some m) fun m => ∃ a b, A' a ∧ B' b ∧ merge? a b = some m :=
  fun m' => by
  constructor
  · rintro ⟨a', b', ha', hb', hmerge⟩
    obtain ⟨a, ha, rfl⟩ := (h a').mp ha'
    obtain ⟨b, hb, rfl⟩ := (h' b').mp hb'
    obtain ⟨m, hm, rfl⟩ := (merge?_relabel_iff hρ).mp hmerge
    exact ⟨m, ⟨a, b, ha, hb, hm⟩, rfl⟩
  · rintro ⟨m, ⟨a, b, ha, hb, hm⟩, rfl⟩
    exact ⟨_, _, (h _).mpr ⟨a, ha, rfl⟩, (h' _).mpr ⟨b, hb, rfl⟩, (merge?_relabel_iff hρ).mpr ⟨m, hm, rfl⟩⟩

end Images

end Binding

/-! ## Joined rows -/

/-- One of the rows has the binding. -/
def JoinRow.Has (rows : List JoinRow) (b : Binding) : Prop :=
  ∃ row ∈ rows, row.binding = b

theorem JoinRow.has_join_iff {rows : List JoinRow} {as : List Answer} {m : Binding} : Has (join rows as) m ↔
    ∃ a b, Has rows a ∧ AnswerSet.Has ⟨as⟩ b ∧ Binding.merge? a b = some m := by
  refine exists_join_iff.trans ⟨?_, ?_⟩
  · rintro ⟨row, hrow, a, ha, hmerge⟩
    exact ⟨_, _, ⟨row, hrow, rfl⟩, ⟨a, ha, rfl⟩, hmerge⟩
  · rintro ⟨_, _, ⟨row, hrow, rfl⟩, ⟨a, ha, rfl⟩, hmerge⟩
    exact ⟨row, hrow, a, ha, hmerge⟩

theorem JoinRow.isEmpty_eq_false_iff {rows : List JoinRow} : rows.isEmpty = false ↔ ∃ b, Has rows b := by
  cases rows with
  | nil => exact iff_of_false (fun h => nomatch h) fun ⟨_, _, hrow, _⟩ => nomatch hrow
  | cons row rows => exact iff_of_true rfl ⟨_, row, .head _, rfl⟩

/-! ## Two pieces of work -/

namespace Resolve

variable {α α' β β' : Type} {S : Knowledge → Nat → Knowledge → Nat → Prop} {R : α → α' → Prop} {Q : β → β' → Prop}

/-- If both pieces of work start from related knowledge and succeed, then their results are related, and what they
leave is. -/
def Agrees (S : Knowledge → Nat → Knowledge → Nat → Prop) (x : Resolve α) (y : Resolve α') (R : α → α' → Prop) : Prop :=
  ∀ k t a l u k' t' a' l' u', S k t.vars k' t'.vars → x.Gives k t a l u → y.Gives k' t' a' l' u' →
    S l u.vars l' u'.vars ∧ R a a'

theorem agrees_pure {a : α} {a' : α'} (h : R a a') : Agrees S (pure a) (pure a') R := by
  intro k t _ _ _ k' t' _ _ _ hs hx hy
  obtain ⟨rfl, rfl, rfl⟩ := gives_pure.mp hx
  obtain ⟨rfl, rfl, rfl⟩ := gives_pure.mp hy
  exact ⟨hs, h⟩

theorem Agrees.bind {x : Resolve α} {y : Resolve α'} {f : α → Resolve β} {g : α' → Resolve β'}
    (hxy : Agrees S x y R) (h : ∀ a a', R a a' → Agrees S (f a) (g a') Q) : Agrees S (x >>= f) (y >>= g) Q := by
  intro k t _ _ _ k' t' _ _ _ hs hx hy
  obtain ⟨a, l, u, ha, hx⟩ := gives_bind.mp hx
  obtain ⟨a', l', u', ha', hy⟩ := gives_bind.mp hy
  obtain ⟨hs, hr⟩ := hxy _ _ _ _ _ _ _ _ _ _ hs ha ha'
  exact h a a' hr _ _ _ _ _ _ _ _ _ _ hs hx hy

/-- Drawing numbers of queries and answers changes nothing that matters. -/
theorem agrees_lift {x : Fresh α} {y : Fresh α'} (hx : ∀ t, (x.run t).2.vars = t.vars)
    (hy : ∀ t, (y.run t).2.vars = t.vars) (h : ∀ t t', R (x.run t).1 (y.run t').1) :
    Agrees S (x : Resolve α) (y : Resolve α') R := by
  intro k t a l u k' t' a' l' u' hs hgives hgives'
  obtain ⟨hrun, rfl⟩ := gives_lift.mp hgives
  obtain ⟨hrun', rfl⟩ := gives_lift.mp hgives'
  have hr := h t t'
  have ht := hx t
  have ht' := hy t'
  rw [hrun] at hr ht
  rw [hrun'] at hr ht'
  rw [← ht, ← ht'] at hs
  exact ⟨hs, hr⟩

end Resolve

namespace Reasoner

open Resolve Binding

variable {S : Knowledge → Nat → Knowledge → Nat → Prop} {ρ : Var → Var} {rows rows' : List JoinRow}
  {queries queries' : List AtomicQuery} {drain drain' : AtomicQuery → Resolve (List Answer)}

/-- The joins of renamed answers are the renamed joins. -/
theorem agrees_joinAllWith (hρ : Function.Injective ρ) (hqueries : List.Forall₂ (fun q q' =>
      Agrees S (drain q) (drain' q') fun as as' => Images ρ (AnswerSet.Has ⟨as⟩) (AnswerSet.Has ⟨as'⟩))
      queries queries') (hrows : Images ρ (JoinRow.Has rows) (JoinRow.Has rows')) :
    Agrees S (joinAllWith drain rows queries) (joinAllWith drain' rows' queries') fun rows rows' =>
      Images ρ (JoinRow.Has rows) (JoinRow.Has rows') := by
  induction hqueries generalizing rows rows' with
  | nil => exact agrees_pure hrows
  | cons hq _ ih =>
    refine hq.bind fun as as' has => ?_
    have hjoin : Images ρ (JoinRow.Has (JoinRow.join rows as)) (JoinRow.Has (JoinRow.join rows' as')) :=
      (hrows.merge hρ has).congr (fun _ => JoinRow.has_join_iff) fun _ => JoinRow.has_join_iff
    have hempty : (JoinRow.join rows' as').isEmpty = (JoinRow.join rows as).isEmpty := by
      rw [Bool.eq_iff_iff, ← not_iff_not, Bool.not_eq_true, Bool.not_eq_true, JoinRow.isEmpty_eq_false_iff,
        JoinRow.isEmpty_eq_false_iff]
      exact hjoin.exists_iff
    dsimp only
    rw [hempty]
    split
    · exact agrees_pure (.none (fun _ ⟨_, hrow, _⟩ => nomatch hrow) fun _ ⟨_, hrow, _⟩ => nomatch hrow)
    · exact ih hjoin

end Reasoner

/-- To join a body is to join answers to the renumbered queries of the body. -/
theorem AnswerStream.joinBody_eq (resolve : Resolver) (path : ResolutionPath) (rows : List JoinRow)
    (body : List AtomicQuery) : joinBody resolve path rows body = Reasoner.joinAllWith
      (fun q => do resolve path (← (q.fork : Fresh _))) rows body := by
  induction body generalizing rows with
  | nil => rfl
  | cons q body ih =>
    rw [joinBody, Reasoner.joinAllWith, bind_assoc]
    simp only [ih]

end GraphInference
