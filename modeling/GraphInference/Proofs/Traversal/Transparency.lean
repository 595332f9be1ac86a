import GraphInference.Proofs.Pattern.Likeness
import GraphInference.Proofs.Pattern.Matching
import GraphInference.Proofs.Traversal.Kept

/-!
# Kept programs are as good as fresh ones

A planner that has planned other patterns before gives for a pattern a program that finds what the
program of a fresh planner finds (`ProgramCache.transparent`), as long as all of the patterns are legible.
A program that is found was planned for a pattern of the same text, which then means the same.
-/

namespace GraphInference

/-! ## What programs find -/

namespace Conjunction

variable {g : Graph} {c c' : Conjunction} {own : Var → Bool} {s t : Supply} {p : Program}

/-- Bindings that differ on variables of the plan only are the same on the own ones. -/
theorem restrict_eq_of_hidden {m n : Nat} (hown : ∀ k, m ≤ k → own (.generated k) = false)
    {b b' : Binding} (h : ∀ v, ¬ FragmentSet.Hidden m n v → b.find? v = b'.find? v) :
    b.restrict own = b'.restrict own := by
  refine SortedMap.ext_find? fun v => ?_
  rw [SortedMap.find?_restrict, SortedMap.find?_restrict]
  split
  · next hv =>
    refine h v ?_
    rintro ⟨k, hk, -, rfl⟩
    rw [hown k hk] at hv
    exact Bool.false_ne_true hv
  · rfl

/-- What a plan finds of variables that were not generated for it are the matches. -/
theorem exists_execute_restrict (hg : g.Reachable) (hfresh : c.FreshFrom s.vars)
    (hp : (Planner.planWithBound c .empty).Gives s p t)
    (hown : ∀ k, s.vars ≤ k → own (.generated k) = false) :
    ∃ bs, p.execute g .empty = .ok bs ∧ ∀ b, b ∈ bs.map (·.restrict own) ↔
      ∃ m, c.IsMatch g m ∧ m.restrict own = b := by
  obtain ⟨bs, hexecute, hsound, hcomplete⟩ := execute_plan hg hfresh hp
  refine ⟨bs, hexecute, fun b => ?_⟩
  rw [List.mem_map]
  constructor
  · rintro ⟨b, hb, rfl⟩
    obtain ⟨m, hm, hsame⟩ := hsound b hb
    exact ⟨m, hm, (restrict_eq_of_hidden hown hsame).symm⟩
  · rintro ⟨m, hm, rfl⟩
    obtain ⟨b, hb, hsame⟩ := hcomplete m hm
    exact ⟨b, hb, restrict_eq_of_hidden hown hsame⟩

/-- The concepts that the pattern holds of make a match. -/
theorem exists_isMatch_of_reads {look : Var → Option ConceptId} (h : c.Reads g look) :
    ∃ m, c.IsMatch g m ∧ ∀ v, c.Names v → m.find? v = look v := by
  let named := c.statements.flatMap fun s => s.subject :: s.properties.flatMap Property.vars
  let binding : Binding := .ofList (named.filterMap fun v => (look v).map (v, ·))
  have hnamed {v : Var} (hv : c.Names v) : v ∈ named := by
    obtain ⟨s, hs, p, hp, hv⟩ := hv
    refine List.mem_flatMap.mpr ⟨s, hs, ?_⟩
    have hvars (hmem : v ∈ p.vars) : v ∈ s.subject :: s.properties.flatMap Property.vars :=
      .tail _ (List.mem_flatMap.mpr ⟨p, hp, hmem⟩)
    cases p with
    | isa t =>
      cases t with
      | label l => exact List.mem_cons.mpr (.inl hv)
      | var w => exact hv.elim (fun h => h ▸ .head _) fun h => hvars (h ▸ .head _)
    | relation ps =>
      obtain ⟨p, hp, hv⟩ := hv
      exact hv.elim (fun h => h ▸ .head _) fun h => hvars (h ▸ List.mem_map_of_mem hp)
    | has owned w q => exact hv.elim (fun h => h ▸ .head _) fun h => hvars (h ▸ .head _)
    | _ => exact List.mem_cons.mpr (.inl hv)
  have hfind (v : Var) (hv : c.Names v) : binding.find? v = look v :=
    Option.ext fun id => SortedMap.find?_ofList_keys.trans (and_iff_right (hnamed hv))
  obtain ⟨m, hm, hmb⟩ := exists_isMatch (h.congr fun v hv => (hfind v hv).symm)
  exact ⟨m, hm, fun v hv => (hmb v hv).trans (hfind v hv)⟩

/-- Legible patterns of one text have the same matches, as far as variables go that are not generated. -/
theorem Legible.exists_isMatch_restrict (hc : c.Legible) (hc' : c'.Legible) (h : c.text = c'.text)
    (hown : ∀ k, own (.generated k) = false) {m : Binding} (hm : c.IsMatch g m) :
    ∃ m', c'.IsMatch g m' ∧ m'.restrict own = m.restrict own := by
  obtain ⟨look, hlook, hreads⟩ := hc.means hc' h g m.find? hm.reads
  obtain ⟨m', hm', hfind⟩ := exists_isMatch_of_reads hreads
  refine ⟨m', hm', SortedMap.ext_find? fun v => ?_⟩
  rw [SortedMap.find?_restrict, SortedMap.find?_restrict]
  split
  · next hv =>
    have hv : ∀ k, v ≠ .generated k := by
      rintro k rfl
      rw [hown k] at hv
      exact Bool.false_ne_true hv
    have hnone {c : Conjunction} {m : Binding} (hm : c.IsMatch g m) (hv : ¬ c.Names v) :
        m.find? v = none := by
      rw [← hm.domain, Bool.not_eq_true, SortedMap.contains_eq_false_iff] at hv
      exact hv
    by_cases hnamed : c'.Names v
    · rw [hfind v hnamed, hlook v hv]
    · rw [hnone hm' hnamed, hnone hm fun hn => hnamed (hc'.names_of_text_eq hc h.symm hv hn)]
  · rfl

end Conjunction

/-! ## Caches -/

namespace ProgramCache

/-- The cache after plans for the patterns, each with the supply that it was made with. -/
def after (calls : List (Conjunction × Supply)) (cache : ProgramCache) : ProgramCache :=
  calls.foldl (fun cache call => ((plan call.1 cache).run call.2).1.2) cache

/-- Every program under the text was planned for a legible pattern of this text. -/
def KeepsPlans (cache : ProgramCache) (text : String) : Prop :=
  ∀ e ∈ cache.entries, e.1 = text → ∃ c s t, c.Legible ∧ c.FreshFrom s.vars ∧ c.text = text ∧
    (Planner.planWithBound c .empty).Gives s e.2 t

/-- Of the variables in `own` the two programs find the same in every graph, or there is none for both. -/
def Agree (own : Var → Bool) : Except InferenceError Program → Except InferenceError Program → Prop
  | .ok p, .ok p' => ∀ g : Graph, g.Reachable → ∃ bs bs', p.execute g .empty = .ok bs ∧
      p'.execute g .empty = .ok bs' ∧
        ∀ b, b ∈ bs.map (·.restrict own) ↔ b ∈ bs'.map (·.restrict own)
  | .error _, .error _ => True
  | _, _ => False

variable {cache : ProgramCache} {calls : List (Conjunction × Supply)} {c : Conjunction} {s s' : Supply}
  {own : Var → Bool} {text : String}

/-- A plan keeps what was kept and what it planned. -/
theorem KeepsPlans.plan (h : cache.KeepsPlans text)
    (hc : c.text = text → c.Legible ∧ c.FreshFrom s.vars) :
    ((ProgramCache.plan c cache).run s).1.2.KeepsPlans text := by
  rcases hrun : (ProgramCache.plan c cache).run s with ⟨⟨r, cache'⟩, t⟩
  intro e he htext
  rcases cases_of_plan hrun with ⟨-, -, -, -, hkept⟩ | ⟨-, hplanned, hkept⟩
  · exact h e (hkept e he) htext
  · rcases hkept e he with he | ⟨hkey, rfl⟩
    · exact h e he htext
    · have hsame : c.text = text := hkey.symm.trans htext
      obtain ⟨hlegible, hfresh⟩ := hc hsame
      exact ⟨c, s, t, hlegible, hfresh, hsame, hplanned⟩

theorem KeepsPlans.after (h : cache.KeepsPlans text) (hcalls : ∀ call ∈ calls,
    call.1.text = text → call.1.Legible ∧ call.1.FreshFrom call.2.vars) :
    (cache.after calls).KeepsPlans text := by
  induction calls generalizing cache with
  | nil => exact h
  | cons call calls ih =>
    obtain ⟨hcall, hrest⟩ := List.forall_mem_cons.mp hcalls
    exact ih (h.plan hcall) hrest

/-- A program that is given was planned for a pattern of the same text, and one is given whenever every
statement of the pattern says something. -/
theorem KeepsPlans.result (h : cache.KeepsPlans c.text) (hc : c.Legible) (hs : c.FreshFrom s.vars) :
    match ((ProgramCache.plan c cache).run s).1.1 with
    | .ok p => (∀ st ∈ c.statements, st.IsFounded) ∧ ∃ c' u t, c'.Legible ∧ c'.FreshFrom u.vars ∧
        c'.text = c.text ∧ (Planner.planWithBound c' .empty).Gives u p t
    | .error _ => ¬ ∀ st ∈ c.statements, st.IsFounded := by
  rcases hrun : (ProgramCache.plan c cache).run s with ⟨⟨r, cache'⟩, t⟩
  rcases cases_of_plan hrun with ⟨e, hfind, rfl, -, -⟩ | ⟨-, hplanned, -⟩
  · have hkey : e.1 = c.text := by simpa using List.find?_some hfind
    obtain ⟨c', u, t, hc', hu, htext, hp⟩ := h e (List.mem_of_find?_eq_some hfind) hkey
    exact ⟨hc'.isFounded hc htext (Conjunction.exists_planWithBound_iff.mp ⟨e.2, t, hp⟩),
      c', u, t, hc', hu, htext, hp⟩
  · cases r with
    | ok p =>
      exact ⟨Conjunction.exists_planWithBound_iff.mp ⟨p, t, hplanned⟩, c, s, t, hc, hs, rfl, hplanned⟩
    | error e =>
      intro hfounded
      obtain ⟨p, u, hp⟩ := Conjunction.exists_planWithBound_iff (u := s).mpr hfounded
      cases hplanned.symm.trans hp

/-- The programs that two planners give for a pattern find the same. -/
theorem KeepsPlans.agree {cache' : ProgramCache} (h : cache.KeepsPlans c.text)
    (h' : cache'.KeepsPlans c.text) (hc : c.Legible) (hs : c.FreshFrom s.vars) (hs' : c.FreshFrom s'.vars)
    (hown : ∀ k, own (.generated k) = false) :
    Agree own ((ProgramCache.plan c cache).run s).1.1 ((ProgramCache.plan c cache').run s').1.1 := by
  have hr := h.result hc hs
  have hr' := h'.result hc hs'
  generalize ((ProgramCache.plan c cache).run s).1.1 = r at hr
  generalize ((ProgramCache.plan c cache').run s').1.1 = r' at hr'
  match r, r' with
  | .ok p, .ok p' =>
    obtain ⟨-, d, u, t, hd, hu, htext, hp⟩ := hr
    obtain ⟨-, d', u', t', hd', hu', htext', hp'⟩ := hr'
    intro g hg
    obtain ⟨bs, hexecute, hbs⟩ := Conjunction.exists_execute_restrict hg hu hp fun k _ => hown k
    obtain ⟨bs', hexecute', hbs'⟩ := Conjunction.exists_execute_restrict hg hu' hp' fun k _ => hown k
    have hsame : d.text = d'.text := htext.trans htext'.symm
    refine ⟨bs, bs', hexecute, hexecute', fun b => ?_⟩
    rw [hbs, hbs']
    constructor
    · rintro ⟨m, hm, rfl⟩
      exact hd.exists_isMatch_restrict hd' hsame hown hm
    · rintro ⟨m, hm, rfl⟩
      exact hd'.exists_isMatch_restrict hd hsame.symm hown hm
  | .error _, .error _ => trivial
  | .ok p, .error _ => exact absurd hr.1 hr'
  | .error _, .ok p => exact absurd hr'.1 hr

theorem keepsPlans_ofCapacity (n : Nat) (text : String) : (ofCapacity n).KeepsPlans text :=
  fun _ he => nomatch he

/-- After any history of plans the program for a pattern finds what the program of a fresh planner finds
of the variables that are not generated, and patterns of the same text mean the same. -/
theorem transparent {n : Nat} (hcalls : ∀ call ∈ calls,
      call.1.text = c.text → call.1.Legible ∧ call.1.FreshFrom call.2.vars)
    (hc : c.Legible) (hs : c.FreshFrom s.vars) (hs' : c.FreshFrom s'.vars)
    (hown : ∀ k, own (.generated k) = false) :
    Agree own ((plan c ((ofCapacity n).after calls)).run s).1.1 ((plan c (ofCapacity n)).run s').1.1 ∧
      ∀ call ∈ calls, call.1.text = c.text → call.1.Means c ∧ c.Means call.1 ∧
        ∀ v, (∀ k, v ≠ .generated k) → (call.1.Names v ↔ c.Names v) := by
  have hempty := keepsPlans_ofCapacity n c.text
  refine ⟨(hempty.after hcalls).agree hempty hc hs hs' hown, fun call hcall htext => ?_⟩
  have hlegible := (hcalls call hcall htext).1
  exact ⟨hlegible.means hc htext, hc.means hlegible htext.symm, fun v hv =>
    ⟨hc.names_of_text_eq hlegible htext.symm hv, hlegible.names_of_text_eq hc htext hv⟩⟩

end ProgramCache

/-! ## A pattern that is read twice -/

namespace OwnedName

open ProgramCache

/-- `$x has name "Bob";`, read when `k` variables had been generated. -/
def pattern (k : Nat) : Conjunction :=
  ⟨[⟨.named "x", [.has ⟨"name"⟩ (.generated k) (some (.eq (.string "Bob")))]⟩]⟩

theorem legible_pattern (k : Nat) : (pattern k).Legible where
  statements := by
    have hx : (Var.named "x").Legible := by decide +kernel
    have hname : Text.IsName "name" := by decide +kernel
    have hliteral : (Value.string "Bob").Legible := show '"' ∉ "Bob".toList by decide +kernel
    exact List.forall_mem_singleton.mpr ⟨hx, List.forall_mem_singleton.mpr ⟨hname, hliteral⟩,
      List.forall_mem_singleton.mpr fun _ hps => nomatch hps⟩
  unprinted := by
    have hne := Var.generated_ne_named k "x"
    refine List.forall_mem_singleton.mpr fun owned v p hp => ?_
    cases List.mem_singleton.mp hp
    refine ⟨⟨k, rfl⟩, hne, List.forall_mem_singleton.mpr fun q hq _ => ⟨rfl, ?_⟩⟩
    exact List.mem_singleton.mp hq

theorem freshFrom_pattern {k n : Nat} (h : k < n) : (pattern k).FreshFrom n := by
  rintro j hj ⟨s, hs, p, hp, hv⟩
  obtain rfl := List.mem_singleton.mp hs
  obtain rfl := List.mem_singleton.mp hp
  rcases hv with hv | hv
  · exact Var.generated_ne_named _ _ hv
  · have := Var.generated_injective hv
    omega

/-- The second reading of the pattern gets the program of the first one, which looks for the same. -/
theorem transparent_bob :
    let cache := (ofCapacity 1).after [(pattern 0, { vars := 1 })]
    pattern 0 ≠ pattern 1 ∧ ((plan (pattern 1) cache).run { vars := 2 }).1.2.hits = 1 ∧
      Agree Var.userDefined ((plan (pattern 1) cache).run { vars := 2 }).1.1
        ((plan (pattern 1) (ofCapacity 1)).run { vars := 2 }).1.1 ∧
      ∀ call ∈ [(pattern 0, ({ vars := 1 } : Supply))], call.1.text = (pattern 1).text →
        call.1.Means (pattern 1) ∧ (pattern 1).Means call.1 ∧
          ∀ v, (∀ k, v ≠ .generated k) → (call.1.Names v ↔ (pattern 1).Names v) := by
  intro cache
  have hcalls : ∀ call ∈ [(pattern 0, ({ vars := 1 } : Supply))], call.1.text = (pattern 1).text →
      call.1.Legible ∧ call.1.FreshFrom call.2.vars :=
    List.forall_mem_singleton.mpr fun _ => ⟨legible_pattern 0, freshFrom_pattern Nat.zero_lt_one⟩
  have hfresh : (pattern 1).FreshFrom ({ vars := 2 } : Supply).vars := freshFrom_pattern Nat.one_lt_two
  exact ⟨by decide +kernel, by decide +kernel,
    transparent hcalls (legible_pattern 1) hfresh hfresh fun _ => rfl⟩

end OwnedName

/-! ## A string with quotes in it -/

namespace QuotedString

open ProgramCache

/-- An attribute with the value `a`. -/
def graph : Graph :=
  [.attributeType ⟨"name"⟩, .attr ⟨"name"⟩ (.string "a")].foldl Graph.perform {}

/-- `$x val != 'p"; $x val != "a';` -/
def single : Conjunction :=
  ⟨[⟨.named "x", [.value ⟨.neq, .string "p\"; $x val != \"a"⟩]⟩]⟩

/-- `$x val != "p"; $x val != "a";` -/
def double : Conjunction :=
  ⟨[⟨.named "x", [.value ⟨.neq, .string "p"⟩]⟩, ⟨.named "x", [.value ⟨.neq, .string "a"⟩]⟩]⟩

/-- How many bindings a program that was planned finds. -/
def count (r : Except InferenceError Program) : Option Nat :=
  (r.bind fun p => p.execute graph .empty).toOption.map List.length

/-- The second pattern gets the program of the first one, which finds what the second one excludes. -/
theorem not_transparent : single.text = double.text ∧
    ¬ Agree Var.userDefined ((plan double ((ofCapacity 1).after [(single, {})])).run {}).1.1
      ((plan double (ofCapacity 1)).run {}).1.1 := by
  refine ⟨by decide +kernel, fun h => ?_⟩
  have hkept : count ((plan double ((ofCapacity 1).after [(single, {})])).run {}).1.1 = some 1 := by
    decide +kernel
  have hfresh : count ((plan double (ofCapacity 1)).run {}).1.1 = some 0 := by decide +kernel
  generalize ((plan double ((ofCapacity 1).after [(single, {})])).run {}).1.1 = r at h hkept
  generalize ((plan double (ofCapacity 1)).run {}).1.1 = r' at h hfresh
  match r, r' with
  | .error _, _ => cases hkept
  | .ok _, .error _ => exact h
  | .ok p, .ok p' =>
    obtain ⟨bs, bs', hbs, hbs', hsame⟩ := h graph ⟨_, rfl⟩
    replace hkept : bs.length = 1 := by
      simpa [count, Except.bind, hbs, Except.toOption] using hkept
    replace hfresh : bs' = [] := by
      simpa [count, Except.bind, hbs', Except.toOption] using hfresh
    obtain ⟨b, rfl⟩ := List.length_eq_one_iff.mp hkept
    have hmem := (hsame _).mp (.head _)
    rw [hfresh] at hmem
    cases hmem

end QuotedString

end GraphInference
