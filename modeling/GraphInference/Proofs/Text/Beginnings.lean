import Mathlib.Data.List.Basic

/-!
# Texts that begin alike

Texts that are put together from parts with marks between them can be told apart part by part:
`Text.Tells` says what two parts that begin the same text have in common, with one lemma for each way of
putting parts together.
-/

namespace GraphInference

namespace Text

/-- The text stops here or goes on with one of the characters. -/
def Stops (ends r : List Char) : Prop :=
  ∀ c ∈ r.head?, c ∈ ends

/-- Where `x` and `y`, each up to one of the ends, begin the same text, `P` holds and they end at the same
place. -/
def Tells (ends x y : List Char) (P : Prop) : Prop :=
  ∀ ⦃r r' : List Char⦄, Stops ends r → Stops ends r' → x ++ r = y ++ r' → P ∧ r = r'

variable {α : Type} {d : Char} {ends x y x' y' sep : List Char} {P Q : Prop}

theorem stops_cons {r : List Char} : Stops ends (d :: r) ↔ d ∈ ends := by
  simp [Stops]

theorem Stops.mono {r : List Char} (h : Stops ends r) (hsub : ends ⊆ sep) : Stops sep r :=
  fun c hc => hsub (h c hc)

namespace Tells

theorem imp (h : Tells ends x y P) (himp : P → Q) : Tells ends x y Q :=
  fun _ _ hr hr' heq => (h hr hr' heq).imp_left himp

theorem mono (h : Tells sep x y P) (hsub : ends ⊆ sep) : Tells ends x y P :=
  fun _ _ hr hr' heq => h (hr.mono hsub) (hr'.mono hsub) heq

theorem prepend (k : List Char) (h : Tells ends x y P) : Tells ends (k ++ x) (k ++ y) P := by
  intro r r' hr hr' heq
  rw [List.append_assoc, List.append_assoc] at heq
  exact h hr hr' (List.append_cancel_left heq)

/-- One text after the other, with a character between them; what comes first may matter for what comes
then. -/
theorem bind (h : Tells [d] x y P) (h' : P → Tells ends x' y' Q) :
    Tells ends (x ++ d :: x') (y ++ d :: y') (P ∧ Q) := by
  intro r r' hr hr' heq
  simp only [List.append_assoc, List.cons_append] at heq
  obtain ⟨hP, heq⟩ := h (stops_cons.mpr (.head _)) (stops_cons.mpr (.head _)) heq
  obtain ⟨hQ, heq⟩ := h' hP hr hr' (List.cons.inj heq).2
  exact ⟨⟨hP, hQ⟩, heq⟩

/-- One text after the other, where the second one is empty or begins with the character. -/
theorem append (h : Tells (d :: ends) x y P) (hx : ∀ c ∈ x'.head?, c = d) (hy : ∀ c ∈ y'.head?, c = d)
    (h' : Tells ends x' y' Q) : Tells ends (x ++ x') (y ++ y') (P ∧ Q) := by
  have hstops {z r : List Char} (hz : ∀ c ∈ z.head?, c = d) (hr : Stops ends r) :
      Stops (d :: ends) (z ++ r) := by
    cases z with
    | nil => exact hr.mono (List.subset_cons_self d ends)
    | cons c z =>
      obtain rfl := hz c rfl
      exact stops_cons.mpr (.head _)
  intro r r' hr hr' heq
  rw [List.append_assoc, List.append_assoc] at heq
  obtain ⟨hP, heq⟩ := h (hstops hx hr) (hstops hy hr') heq
  obtain ⟨hQ, heq⟩ := h' hr hr' heq
  exact ⟨⟨hP, hQ⟩, heq⟩

/-- A text up to its last character. -/
theorem last (h : Tells [d] x y P) : Tells ends (x ++ [d]) (y ++ [d]) P := by
  have hnil : Tells ends [] [] True := fun _ _ _ _ heq => ⟨trivial, heq⟩
  exact (h.bind fun _ => hnil).imp And.left

/-- Texts of different beginnings are different. -/
theorem of_head (hd : d ∉ ends) (hy : ∀ c ∈ y.head?, c ≠ d) : Tells ends (d :: x) y P := by
  intro r r' hr hr' heq
  cases y with
  | nil =>
    obtain rfl : d :: (x ++ r) = r' := heq
    exact absurd (stops_cons.mp hr') hd
  | cons c y => exact absurd (List.cons.inj heq).1.symm (hy c rfl)

theorem symm (h : Tells ends x y P) : Tells ends y x P :=
  fun _ _ hr hr' heq => (h hr' hr heq.symm).imp_right Eq.symm

/-- A text that goes on where another one stops is different. -/
theorem of_longer (hd : d ∉ ends) (h : Tells (d :: ends) x y Q) : Tells ends x (y ++ d :: y') P := by
  intro r r' hr hr' heq
  rw [List.append_assoc, List.cons_append] at heq
  obtain ⟨-, rfl⟩ := h (hr.mono (List.subset_cons_self d ends)) (stops_cons.mpr (.head _)) heq
  exact absurd (stops_cons.mp hr) hd

/-- Runs of characters that are no ends. -/
theorem run {p : Char → Bool} (hends : ends.all (!p ·) = true) (hx : ∀ c ∈ x, p c = true)
    (hy : ∀ c ∈ y, p c = true) : Tells ends x y (x = y) := by
  have hstop {c : Char} {s : List Char} (hc : p c = true) : ¬ Stops ends (c :: s) := by
    intro h
    have hend := List.all_eq_true.mp hends c (stops_cons.mp h)
    rw [hc] at hend
    exact Bool.false_ne_true hend
  intro r r' hr hr' heq
  induction x generalizing y with
  | nil =>
    cases y with
    | nil => exact ⟨rfl, heq⟩
    | cons c y =>
      obtain rfl : r = c :: (y ++ r') := heq
      exact absurd hr (hstop (hy c (.head _)))
  | cons c x ih =>
    cases y with
    | nil =>
      obtain rfl : c :: (x ++ r) = r' := heq
      exact absurd hr' (hstop (hx c (.head _)))
    | cons c' y =>
      obtain ⟨rfl, htail⟩ := List.cons.inj heq
      obtain ⟨rfl, hrest⟩ := ih (fun c hc => hx c (.tail _ hc)) (fun c hc => hy c (.tail _ hc)) htail
      exact ⟨rfl, hrest⟩

/-- Texts with separators between them, item by item. An item begins with no end, so that it is not taken
for what follows the last one. -/
theorem intercalate {f : α → List Char} {R : α → α → Prop} {l l' : List α} (hd : d ∉ ends)
    (hhead : ∀ a, a ∈ l ∨ a ∈ l' → ∃ c s, f a = c :: s ∧ c ∉ ends)
    (h : ∀ a ∈ l, ∀ b ∈ l', Tells (d :: ends) (f a) (f b) (R a b)) :
    Tells ends ((d :: sep).intercalate (l.map f)) ((d :: sep).intercalate (l'.map f))
      (List.Forall₂ R l l') := by
  have hfirst (a : α) (l : List α) (r : List Char) (hr : Stops ends r) : ∃ s,
      (d :: sep).intercalate ((a :: l).map f) ++ r = f a ++ s ∧ Stops (d :: ends) s ∧
        (l = [] ∧ s = r ∨
          l ≠ [] ∧ s = (d :: sep) ++ ((d :: sep).intercalate (l.map f) ++ r)) := by
    cases l with
    | nil =>
      refine ⟨r, ?_, hr.mono (List.subset_cons_self d ends), .inl ⟨rfl, rfl⟩⟩
      rw [List.map_singleton, List.intercalate_singleton]
    | cons b l =>
      refine ⟨(d :: sep) ++ ((d :: sep).intercalate ((b :: l).map f) ++ r), ?_,
        stops_cons.mpr (.head _), .inr ⟨List.cons_ne_nil b l, rfl⟩⟩
      simp only [List.map_cons, List.intercalate_cons_cons, List.append_assoc]
  have hstop {a : α} {r s : List Char} (ha : a ∈ l ∨ a ∈ l') (hr : Stops ends r) : f a ++ s ≠ r := by
    rintro rfl
    obtain ⟨c, t, hc, hnot⟩ := hhead a ha
    rw [hc] at hr
    exact hnot (stops_cons.mp hr)
  have hlast {r s : List Char} (hr : Stops ends r) : (d :: sep) ++ s ≠ r := by
    rintro rfl
    exact hd (stops_cons.mp hr)
  intro r r' hr hr' heq
  induction l generalizing l' with
  | nil =>
    cases l' with
    | nil => exact ⟨.nil, heq⟩
    | cons b l' =>
      obtain ⟨s, hs, -⟩ := hfirst b l' r' hr'
      exact absurd (hs.symm.trans heq.symm) (hstop (.inr (.head _)) hr)
  | cons a l ih =>
    obtain ⟨s, hs, hstops, hl⟩ := hfirst a l r hr
    cases l' with
    | nil => exact absurd (hs.symm.trans heq) (hstop (.inl (.head _)) hr')
    | cons b l' =>
      obtain ⟨s', hs', hstops', hl'⟩ := hfirst b l' r' hr'
      obtain ⟨hab, hrest⟩ := h a (.head _) b (.head _) hstops hstops' (hs.symm.trans (heq.trans hs'))
      rcases hl with ⟨rfl, rfl⟩ | ⟨-, rfl⟩ <;> rcases hl' with ⟨rfl, rfl⟩ | ⟨-, rfl⟩
      · exact ⟨.cons hab .nil, hrest⟩
      · exact absurd hrest.symm (hlast hr)
      · exact absurd hrest (hlast hr')
      · obtain ⟨hall, hend⟩ := ih (fun a ha => hhead a (ha.imp (.tail _) (.tail _)))
          (fun a ha b hb => h a (.tail _ ha) b (.tail _ hb))
          (fun ha => hstop (ha.imp (.tail _) (.tail _))) (List.append_cancel_left hrest)
        exact ⟨.cons hab hall, hend⟩

end Tells

end Text

end GraphInference
