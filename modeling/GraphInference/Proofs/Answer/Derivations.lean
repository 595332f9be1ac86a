import GraphInference.Answer.Indexed
import GraphInference.Proofs.Answer.Cache

/-!
# Derivations of answers

Inserting answers in turn keeps the first one of each binding and gives it the explanations of the later
ones as alternatives, as far as their keys are new to it (`Answer.Enriched`). The positions that an indexed set
keeps are those of the bindings in its list (`IndexedAnswerSet.Represents`), so it holds the answers that a search
of the list finds. What is held of a binding thus depends on which answers were inserted for it, but for their
order only in which of them is the first (`IndexedAnswerSet.insertions_gather`).
-/

namespace GraphInference

/-! ## Keys of an answer -/

namespace Answer

/-- The keys of the derivations of an answer. -/
def keys (a : Answer) : List String :=
  a.explanations.map Explanation.key

/-- The answer after explanations were offered to it: those of keys that it had not, the first one of each
key, became alternatives, and nothing else changed. -/
structure Enriched (old : Answer) (offered : List Explanation) (new : Answer) : Prop where
  id : new.id = old.id
  binding : new.binding = old.binding
  explanation : new.explanation = old.explanation
  added : ∃ added, new.alternatives = old.alternatives ++ added ∧ added.Sublist offered ∧
    (added.map Explanation.key).Nodup ∧ ∀ e ∈ added, e.key ∉ old.keys
  keys : ∀ k, k ∈ new.keys ↔ k ∈ old.keys ∨ k ∈ offered.map Explanation.key

variable {a old mid new : Answer} {e : Explanation} {es fs : List Explanation}

theorem keys_eq_cons (a : Answer) :
    a.keys = a.explanation.key :: a.alternatives.map Explanation.key := rfl

theorem Enriched.refl (a : Answer) : a.Enriched [] a :=
  ⟨rfl, rfl, rfl, ⟨[], by simp⟩, by simp⟩

theorem Enriched.trans (h : old.Enriched es mid) (h' : mid.Enriched fs new) :
    old.Enriched (es ++ fs) new := by
  obtain ⟨added, hadded, hsub, hnodup, hnew⟩ := h.added
  obtain ⟨added', hadded', hsub', hnodup', hnew'⟩ := h'.added
  -- what was added first is among the keys of the answer between
  have hmid : ∀ e ∈ old.explanations ++ added, e.key ∈ mid.keys := by
    intro e he
    have hkeys : mid.keys = (old.explanations ++ added).map Explanation.key := by
      rw [keys_eq_cons, h.explanation, hadded]
      rfl
    exact hkeys ▸ List.mem_map_of_mem he
  refine ⟨h'.id.trans h.id, h'.binding.trans h.binding, h'.explanation.trans h.explanation,
    ⟨added ++ added', ?_, hsub.append hsub', ?_, fun e he => ?_⟩, fun k => ?_⟩
  · rw [hadded', hadded, List.append_assoc]
  · rw [List.map_append, List.nodup_append]
    refine ⟨hnodup, hnodup', fun k hk k' hk' => ?_⟩
    obtain ⟨e, he, rfl⟩ := List.mem_map.mp hk
    obtain ⟨e', he', rfl⟩ := List.mem_map.mp hk'
    exact fun heq => hnew' e' he' (heq ▸ hmid e (List.mem_append_right _ he))
  · rcases List.mem_append.mp he with he | he
    · exact hnew e he
    · intro hold
      obtain ⟨f, hf, hkey⟩ := List.mem_map.mp hold
      exact hnew' e he (hkey ▸ hmid f (List.mem_append_left _ hf))
  · rw [h'.keys, h.keys, List.map_append, List.mem_append, or_assoc]

theorem enriched_addExplanation (a : Answer) (e : Explanation) : a.Enriched [e] (a.addExplanation e) := by
  have hany : (a.explanations.any fun f => f.key = e.key) = true ↔ e.key ∈ a.keys := by
    simp [keys]
  unfold addExplanation
  dsimp only
  split
  · next hold =>
    refine ⟨rfl, rfl, rfl, ⟨[], by simp⟩, fun k => (or_iff_left_of_imp fun hk => ?_).symm⟩
    obtain rfl := List.mem_singleton.mp hk
    exact hany.mp hold
  · next hnew =>
    refine ⟨rfl, rfl, rfl, ⟨[e], rfl, List.Sublist.refl _, List.nodup_singleton _, ?_⟩, fun k => ?_⟩
    · exact List.forall_mem_singleton.mpr fun h => hnew (hany.mpr h)
    · show k ∈ a.explanation.key :: (a.alternatives ++ [e]).map Explanation.key ↔ _
      rw [List.map_append, ← List.cons_append, List.mem_append, ← keys_eq_cons]

/-- Offering explanations one after the other. -/
theorem enriched_foldl_addExplanation (es : List Explanation) (a : Answer) :
    a.Enriched es (es.foldl addExplanation a) := by
  induction es generalizing a with
  | nil => exact .refl a
  | cons e es ih => exact (enriched_addExplanation a e).trans (ih _)

end Answer

/-! ## Insertions -/

namespace AnswerSet

variable {s : AnswerSet} {a : Answer} {as before after : List Answer} {b : Binding}

theorem eraseDups_concat (bs : List Binding) (b : Binding) :
    (bs ++ [b]).eraseDups = if b ∈ bs then bs.eraseDups else bs.eraseDups ++ [b] := by
  rw [List.eraseDups_append, List.removeAll]
  by_cases h : b ∈ bs <;> simp [h, List.eraseDups_cons]

/-- The bindings of the answers, in their order. -/
def bindings (s : AnswerSet) : List Binding :=
  s.answers.map Answer.binding

theorem has_iff_mem_bindings : s.Has b ↔ b ∈ s.bindings :=
  List.mem_map.symm

theorem binding_of_get? (h : s.get? b = some a) : a.binding = b := by
  simpa using List.find?_some h

/-- An answer with the binding gets the explanations; the others stay. -/
def enrich (a : Answer) (b : Answer) : Answer :=
  if b.binding = a.binding then a.explanations.foldl Answer.addExplanation b else b

theorem binding_enrich (a b : Answer) : (enrich a b).binding = b.binding := by
  unfold enrich
  split
  · exact binding_foldl_addExplanation b a.explanations
  · rfl

theorem insert_of_contains (h : s.contains a.binding = true) : s.insert a = (false, ⟨s.answers.map (enrich a)⟩) :=
  if_pos h

theorem insert_of_not_contains (h : s.contains a.binding = false) : s.insert a = (true, ⟨s.answers ++ [a]⟩) :=
  if_neg (Bool.eq_false_iff.mp h)

theorem bindings_insert (s : AnswerSet) (a : Answer) :
    (s.insert a).2.bindings = if s.contains a.binding then s.bindings else s.bindings ++ [a.binding] := by
  cases h : s.contains a.binding with
  | true =>
    rw [insert_of_contains h, if_pos rfl]
    show (s.answers.map (enrich a)).map Answer.binding = s.answers.map Answer.binding
    rw [List.map_map]
    exact List.map_congr_left fun b _ => binding_enrich a b
  | false =>
    rw [insert_of_not_contains h, if_neg Bool.false_ne_true]
    exact List.map_append

/-- What an insertion does to the answer of each binding. -/
theorem get?_insert (s : AnswerSet) (a : Answer) (b : Binding) :
    (s.insert a).2.get? b = if a.binding = b then
        some (((s.get? b).map (a.explanations.foldl Answer.addExplanation)).getD a)
      else s.get? b := by
  cases h : s.contains a.binding with
  | true =>
    rw [insert_of_contains h]
    have hfind : get? ⟨s.answers.map (enrich a)⟩ b = (s.get? b).map (enrich a) := by
      rw [get?, get?, List.find?_map]
      congr 2
      funext c
      show decide ((enrich a c).binding = b) = _
      rw [binding_enrich]
    rw [hfind]
    split
    · next hb =>
      obtain ⟨old, hold⟩ := Option.isSome_iff_exists.mp (hb ▸ h : (s.get? b).isSome = true)
      rw [hold, Option.map_some, Option.map_some, Option.getD_some, enrich, if_pos ((binding_of_get? hold).trans hb.symm)]
    · next hb =>
      cases hold : s.get? b with
      | none => rfl
      | some old => rw [Option.map_some, enrich, if_neg fun heq => hb (heq.symm.trans (binding_of_get? hold))]
  | false =>
    rw [insert_of_not_contains h, get?, List.find?_append]
    have hnone : s.get? a.binding = none := by
      rw [contains, Option.isSome_eq_false_iff, Option.isNone_iff_eq_none] at h
      exact h
    split
    · next hb =>
      subst hb
      rw [← get?, hnone]
      simp
    · next hb => simp [hb, get?]

theorem ofList_concat (as : List Answer) (a : Answer) : ofList (as ++ [a]) = ((ofList as).insert a).2 := by
  rw [ofList, List.foldl_append]
  rfl

theorem contains_eq_true_iff : s.contains b = true ↔ b ∈ s.bindings :=
  contains_iff_has.trans has_iff_mem_bindings

/-- The bindings come in the order in which they are first inserted. -/
theorem bindings_ofList (as : List Answer) :
    (ofList as).bindings = (as.map Answer.binding).eraseDups := by
  induction as using List.reverseRecOn with
  | nil => rfl
  | append_singleton as a ih =>
    have hmem : (ofList as).contains a.binding = true ↔ a.binding ∈ as.map Answer.binding := by
      rw [contains_eq_true_iff, ih, List.mem_eraseDups]
    rw [ofList_concat, bindings_insert, ih, List.map_append, List.map_singleton, eraseDups_concat]
    exact if_congr hmem rfl rfl

theorem nodup_bindings_ofList (as : List Answer) : (ofList as).bindings.Nodup := by
  induction as using List.reverseRecOn with
  | nil => exact .nil
  | append_singleton as a ih =>
    rw [ofList_concat, bindings_insert]
    split
    · exact ih
    · next h => exact List.concat_eq_append ▸ ih.concat fun hin => h (contains_eq_true_iff.mpr hin)

/-- With one answer for each binding every answer is found. -/
theorem get?_eq_some_iff (h : s.bindings.Nodup) : s.get? b = some a ↔ a ∈ s.answers ∧ a.binding = b := by
  constructor
  · intro hget
    exact ⟨List.mem_of_find?_eq_some hget, binding_of_get? hget⟩
  · rintro ⟨ha, rfl⟩
    obtain ⟨d, hd⟩ := Option.isSome_iff_exists.mp (contains_eq_true_iff.mpr (List.mem_map_of_mem ha))
    rw [hd, List.inj_on_of_nodup_map h (List.mem_of_find?_eq_some hd) ha (binding_of_get? hd)]

theorem get?_ofList_eq_none (h : ∀ c ∈ as, c.binding ≠ b) : (ofList as).get? b = none := by
  refine Option.eq_none_iff_forall_ne_some.mpr fun c hc => ?_
  have hmem := contains_eq_true_iff.mp (show (ofList as).contains b = true by rw [contains, hc]; rfl)
  rw [bindings_ofList, List.mem_eraseDups] at hmem
  obtain ⟨c, hc, hcb⟩ := List.mem_map.mp hmem
  exact h c hc hcb

/-- The first answer of a binding is held, enriched by what the others of the binding bring. -/
theorem exists_get?_ofList {first : Answer} (h : as.find? (fun a => a.binding = b) = some first) :
    ∃ a offered, (ofList as).get? b = some a ∧ first.Enriched offered a ∧
      ∀ k, k ∈ a.keys ↔ ∃ c ∈ as, c.binding = b ∧ k ∈ c.keys := by
  induction as using List.reverseRecOn with
  | nil => cases h
  | append_singleton as d ih =>
    rw [List.find?_append] at h
    rw [ofList_concat, get?_insert]
    simp only [List.mem_append, List.mem_singleton, or_and_right, exists_or, exists_eq_left]
    cases hfirst : as.find? fun a => a.binding = b with
    | some first' =>
      obtain rfl : first' = first := by simpa [hfirst] using h
      obtain ⟨a, offered, hget, henriched, hkeys⟩ := ih hfirst
      split
      · next hd =>
        have hmore := Answer.enriched_foldl_addExplanation d.explanations a
        refine ⟨_, _, by rw [hget]; rfl, henriched.trans hmore, fun k => ?_⟩
        rw [hmore.keys, hkeys, and_iff_right hd]
        rfl
      · next hd =>
        refine ⟨a, offered, hget, henriched, fun k => ?_⟩
        rw [hkeys, or_iff_left fun hk => hd hk.1]
    | none =>
      obtain ⟨hd, rfl⟩ : d.binding = b ∧ d = first := by simpa [hfirst] using h
      have hnone : ∀ c ∈ as, c.binding ≠ b := by simpa using hfirst
      refine ⟨d, [], by rw [if_pos hd, get?_ofList_eq_none hnone]; rfl, .refl d, fun k => ?_⟩
      rw [and_iff_right hd, or_iff_right]
      rintro ⟨c, hc, hcb, -⟩
      exact hnone c hc hcb

end AnswerSet

/-! ## Indexes -/

namespace IndexedAnswerSet

variable {s : IndexedAnswerSet} {t : AnswerSet}

/-- The set has the answers of the list, and the index the position of each binding in it. -/
structure Represents (s : IndexedAnswerSet) (t : AnswerSet) : Prop where
  answers : s.answers = t.answers
  index : ∀ b, s.index.find? b = t.answers.findIdx? fun a => a.binding = b

theorem Represents.get?_eq (h : s.Represents t) (b : Binding) : s.get? b = t.get? b := by
  rw [get?, h.index, h.answers, AnswerSet.get?, List.find?_eq_bind_findIdx?_getElem?]

theorem Represents.contains_eq (h : s.Represents t) (b : Binding) : s.contains b = t.contains b := by
  rw [contains, SortedMap.contains, h.index, AnswerSet.contains, AnswerSet.get?, List.findIdx?_isSome]
  exact Bool.eq_iff_iff.mpr (List.any_eq_true.trans List.find?_isSome.symm)

/-- The answer at the position of a binding is the one that has it. -/
theorem modify_eq_map_enrich (ht : t.bindings.Nodup) (a : Answer) {i : Nat}
    (hi : t.answers.findIdx? (fun b => b.binding = a.binding) = some i) :
    t.answers.modify i (a.explanations.foldl Answer.addExplanation) = t.answers.map (AnswerSet.enrich a) := by
  obtain ⟨hlt, hbinding, -⟩ := List.findIdx?_eq_some_iff_getElem.mp hi
  have hbinding : t.answers[i].binding = a.binding := of_decide_eq_true hbinding
  refine List.ext_getElem (by simp) fun j hj hj' => ?_
  have hj : j < t.answers.length := by simpa using hj
  have hat : t.answers[j].binding = a.binding ↔ i = j := by
    constructor
    · intro heq
      have hsame : t.answers[i] = t.answers[j] := List.inj_on_of_nodup_map ht (List.getElem_mem hlt)
        (List.getElem_mem hj) (hbinding.trans heq.symm)
      exact (ht.of_map _).getElem_inj_iff.mp hsame
    · rintro rfl
      exact hbinding
  rw [List.getElem_modify, List.getElem_map, AnswerSet.enrich]
  exact if_congr hat.symm rfl rfl

theorem findIdx?_map_enrich (a : Answer) (b : Binding) (answers : List Answer) :
    (answers.map (AnswerSet.enrich a)).findIdx? (fun c => c.binding = b) =
      answers.findIdx? fun c => c.binding = b := by
  rw [List.findIdx?_map]
  congr 1
  funext c
  show decide ((AnswerSet.enrich a c).binding = b) = _
  rw [AnswerSet.binding_enrich]

/-- An insertion does to the answers and their positions what it does to the list. -/
theorem Represents.insert (h : s.Represents t) (ht : t.bindings.Nodup) (a : Answer) :
    (s.insert a).1 = (t.insert a).1 ∧ (s.insert a).2.Represents (t.insert a).2 := by
  have hcontains := h.contains_eq a.binding
  rw [contains, SortedMap.contains] at hcontains
  unfold IndexedAnswerSet.insert
  cases hi : s.index.find? a.binding with
  | some i =>
    rw [AnswerSet.insert_of_contains (hcontains ▸ hi ▸ rfl)]
    refine ⟨rfl, ?_, fun b => ?_⟩
    · show s.answers.modify i _ = _
      rw [h.answers, modify_eq_map_enrich ht a (h.index _ ▸ hi)]
    · exact (h.index b).trans (findIdx?_map_enrich a b t.answers).symm
  | none =>
    rw [AnswerSet.insert_of_not_contains (hcontains ▸ hi ▸ rfl)]
    refine ⟨rfl, congrArg (· ++ [a]) h.answers, fun b => ?_⟩
    show (s.index.insert a.binding s.answers.length).find? b = (t.answers ++ [a]).findIdx? _
    rw [List.findIdx?_append, ← h.index, List.findIdx?_singleton, h.answers]
    by_cases hb : b = a.binding
    · subst hb
      rw [SortedMap.find?_insert_self, hi]
      simp
    · rw [SortedMap.find?_insert_of_ne _ _ hb]
      simp [Ne.symm hb]

theorem ofList_concat (as : List Answer) (a : Answer) : ofList (as ++ [a]) = ((ofList as).insert a).2 := by
  rw [ofList, List.foldl_append]
  rfl

theorem represents_ofList (as : List Answer) : (ofList as).Represents (AnswerSet.ofList as) := by
  induction as using List.reverseRecOn with
  | nil => exact ⟨rfl, fun b => rfl⟩
  | append_singleton as a ih =>
    rw [ofList_concat, AnswerSet.ofList_concat]
    exact (ih.insert (AnswerSet.nodup_bindings_ofList as) a).2

/-! ## What is gathered -/

/-- The set holds a derivation of the binding with the key. -/
def HasKey (s : IndexedAnswerSet) (b : Binding) (k : String) : Prop :=
  ∃ a, s.get? b = some a ∧ k ∈ a.keys

theorem get?_ofList_eq (as : List Answer) (b : Binding) : (ofList as).get? b = (AnswerSet.ofList as).get? b :=
  (represents_ofList as).get?_eq b

theorem contains_ofList_iff {as : List Answer} {b : Binding} :
    (ofList as).contains b = true ↔ b ∈ as.map Answer.binding := by
  rw [(represents_ofList as).contains_eq, AnswerSet.contains_eq_true_iff, AnswerSet.bindings_ofList,
    List.mem_eraseDups]

theorem insert_fst (s : IndexedAnswerSet) (a : Answer) :
    (s.insert a).1 = true ↔ ¬ s.contains a.binding = true := by
  unfold insert contains SortedMap.contains
  cases s.index.find? a.binding <;> simp

theorem hasKey_ofList_iff {as : List Answer} {b : Binding} {k : String} :
    (ofList as).HasKey b k ↔ ∃ c ∈ as, c.binding = b ∧ k ∈ c.keys := by
  cases hfirst : as.find? fun a => a.binding = b with
  | some first =>
    obtain ⟨a, _, hget, -, hkeys⟩ := AnswerSet.exists_get?_ofList hfirst
    rw [← hkeys, HasKey, get?_ofList_eq, hget]
    simp
  | none =>
    have hnone : ∀ c ∈ as, c.binding ≠ b := by simpa using hfirst
    refine iff_of_false (fun ⟨a, ha, _⟩ => ?_) fun ⟨c, hc, hcb, _⟩ => hnone c hc hcb
    rw [get?_ofList_eq, AnswerSet.get?_ofList_eq_none hnone] at ha
    cases ha

/-- An insertion offers the explanations to the answer of the binding and to no other. -/
theorem exists_enriched_insert {before : List Answer} (a : Answer) {b : Binding} {old : Answer}
    (hold : (ofList before).get? b = some old) : ∃ new, ((ofList before).insert a).2.get? b = some new ∧
      old.Enriched (if a.binding = b then a.explanations else []) new := by
  rw [← ofList_concat, get?_ofList_eq, AnswerSet.ofList_concat, AnswerSet.get?_insert, ← get?_ofList_eq, hold]
  split
  · exact ⟨_, rfl, Answer.enriched_foldl_addExplanation a.explanations old⟩
  · exact ⟨old, rfl, .refl old⟩

/-- What a set is after any insertions. Its index and its list agree with a search of the list. An insertion is
the first of its binding exactly if it says so; one that is not offers its explanations to the answer that is there,
which takes those of new keys. So there is one answer for each binding, in the order of their first insertions,
with the first explanation, and with the keys of all that was inserted for the binding and no others; these do not
depend on the order of the insertions. -/
theorem insertions_gather (as : List Answer) :
    ((ofList as).answers = (AnswerSet.ofList as).answers ∧
      ∀ b, (ofList as).get? b = (AnswerSet.ofList as).get? b ∧
        (ofList as).contains b = (AnswerSet.ofList as).contains b) ∧
    (∀ before a after, as = before ++ a :: after →
      (((ofList before).insert a).1 = true ↔ a.binding ∉ before.map Answer.binding) ∧
        ((ofList before).insert a).1 = ((AnswerSet.ofList before).insert a).1 ∧
        ∀ b old, (ofList before).get? b = some old → ∃ new, ((ofList before).insert a).2.get? b = some new ∧
          old.Enriched (if a.binding = b then a.explanations else []) new) ∧
    ((ofList as).answers.map Answer.binding = (as.map Answer.binding).eraseDups ∧
      ((ofList as).answers.map Answer.binding).Nodup) ∧
    (∀ b, (∀ a, (ofList as).get? b = some a ↔ a ∈ (ofList as).answers ∧ a.binding = b) ∧
      ((ofList as).contains b = true ↔ b ∈ as.map Answer.binding)) ∧
    (∀ b first, as.find? (fun a => a.binding = b) = some first → ∃ a, (ofList as).get? b = some a ∧
      a.explanation = first.explanation ∧ ∀ k, k ∈ a.keys ↔ ∃ c ∈ as, c.binding = b ∧ k ∈ c.keys) ∧
    ∀ as', as.Perm as' → ∀ b, (ofList as).contains b = (ofList as').contains b ∧
      ∀ k, (ofList as).HasKey b k ↔ (ofList as').HasKey b k := by
  have hrep := represents_ofList as
  have hbindings : (ofList as).answers.map Answer.binding = (AnswerSet.ofList as).bindings :=
    congrArg (List.map Answer.binding) hrep.answers
  have hnodup := AnswerSet.nodup_bindings_ofList as
  refine ⟨⟨hrep.answers, fun b => ⟨hrep.get?_eq b, hrep.contains_eq b⟩⟩, fun before a after _ => ⟨?_, ?_, ?_⟩,
    ⟨hbindings.trans (AnswerSet.bindings_ofList as), hbindings ▸ hnodup⟩,
    fun b => ⟨fun a => ?_, contains_ofList_iff⟩, fun b first hfirst => ?_, fun as' hperm b => ⟨?_, fun k => ?_⟩⟩
  · rw [insert_fst, contains_ofList_iff]
  · exact ((represents_ofList before).insert (AnswerSet.nodup_bindings_ofList before) a).1
  · exact fun b old hold => exists_enriched_insert a hold
  · rw [hrep.get?_eq, hrep.answers, AnswerSet.get?_eq_some_iff hnodup]
  · obtain ⟨a, _, hget, henriched, hkeys⟩ := AnswerSet.exists_get?_ofList hfirst
    exact ⟨a, (hrep.get?_eq b).trans hget, henriched.explanation, hkeys⟩
  · exact Bool.eq_iff_iff.mpr (contains_ofList_iff.trans
      ((hperm.map Answer.binding).mem_iff.trans contains_ofList_iff.symm))
  · rw [hasKey_ofList_iff, hasKey_ofList_iff]
    exact exists_congr fun c => and_congr_left fun _ => hperm.mem_iff

end IndexedAnswerSet

namespace Rederived

def binding : Binding :=
  .ofList [(.named "x", ⟨"V1"⟩)]

/-- The binding found in the graph. -/
def found : Answer :=
  .mk ⟨0⟩ binding (.lookup default) []

/-- The same binding by a rule, and again in the graph. -/
def derived : Answer :=
  .mk ⟨1⟩ binding (.rule ⟨⟨0⟩, "ancestry"⟩ default []) [.lookup default]

/-- The binding of no variables. -/
def unbound : Answer :=
  .mk ⟨2⟩ .empty .empty []

def inserted : List Answer :=
  [found, unbound, derived, derived]

/-- Derived and found in either order, the binding has the key of a rule and of a look-up. -/
theorem insertions_gather_rederived :
    inserted = [found, unbound] ++ derived :: [derived] ∧
    (IndexedAnswerSet.ofList [found, unbound]).get? binding = some found ∧
    inserted.find? (fun a => a.binding = binding) = some found ∧
    inserted.Perm inserted.reverse ∧
    (((IndexedAnswerSet.ofList [found, unbound]).insert derived).1 = true ↔
      derived.binding ∉ [found, unbound].map Answer.binding) ∧
    (∃ new, ((IndexedAnswerSet.ofList [found, unbound]).insert derived).2.get? binding = some new ∧
      found.Enriched (if derived.binding = binding then derived.explanations else []) new) ∧
    (∃ a, (IndexedAnswerSet.ofList inserted).get? binding = some a ∧ a.explanation = found.explanation ∧
      ∀ k, k ∈ a.keys ↔ ∃ c ∈ inserted, c.binding = binding ∧ k ∈ c.keys) ∧
    ∀ k, (IndexedAnswerSet.ofList inserted).HasKey binding k ↔
      (IndexedAnswerSet.ofList inserted.reverse).HasKey binding k := by
  have hsplit : inserted = [found, unbound] ++ derived :: [derived] := rfl
  have hget : (IndexedAnswerSet.ofList [found, unbound]).get? binding = some found := by rfl
  have hfirst : inserted.find? (fun a => a.binding = binding) = some found := by rfl
  have hperm : inserted.Perm inserted.reverse := inserted.reverse_perm.symm
  obtain ⟨-, hinsert, -, -, hgathered, horder⟩ := IndexedAnswerSet.insertions_gather inserted
  obtain ⟨hnew, -, hoffered⟩ := hinsert _ _ _ hsplit
  exact ⟨hsplit, hget, hfirst, hperm, hnew, hoffered _ _ hget, hgathered _ _ hfirst,
    (horder _ hperm binding).2⟩

/-- The look-up that comes with the second derivation is not new, nor is the rule of the third one. -/
example : (IndexedAnswerSet.ofList inserted).answers.map Answer.alternatives = [[derived.explanation], []] := by
  rfl

end Rederived

end GraphInference
