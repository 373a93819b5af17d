import Mathlib.Tactic.Common
import Mathlib.Order.Defs.LinearOrder
import Mathlib.Order.Lattice

/-!
# Loops that end early

A loop over a list passes over the elements that are not live in the
current state, lets `f` act on those that are, and ends at the first live
element that `stops`. As long as `f` does not change which other elements
are live, the loop can be described from the state it starts in: it stops
at the first live element that stops, and before that it has acted on the
live elements in front of it, in order (`earlyExit_eq`). For a list in
ascending order both become statements about the order
(`find?_eq_some_of_sorted`, `mem_takeWhile_of_sorted`).
-/

namespace Nimloth

section Loop

variable {σ α : Type*} (live : σ → α → Bool) (stops : α → Bool) (f : σ → α → σ)

/-- The state in which the loop ends, and the element it ended at. -/
def earlyExit : List α → σ → σ × Option α
  | [], s => (s, none)
  | a :: l, s =>
      if live s a then
        if stops a then (s, some a) else earlyExit l (f s a)
      else earlyExit l s

/-- The elements the loop acts on, seen from the state `s` it starts in. -/
def actedOn (s : σ) (l : List α) : List α :=
  (l.takeWhile fun a => !(live s a && stops a)).filter (live s)

variable {live stops f}

theorem actedOn_congr {s s' : σ} {l : List α} (h : ∀ a ∈ l, live s a = live s' a) :
    actedOn live stops s l = actedOn live stops s' l := by
  induction l with
  | nil => rfl
  | cons a l ih =>
      have ha := h a (List.mem_cons_self ..)
      have hl := ih fun b hb => h b (List.mem_cons_of_mem _ hb)
      unfold actedOn at hl ⊢
      rw [List.takeWhile_cons, List.takeWhile_cons, ha]
      split
      · rw [List.filter_cons, List.filter_cons, ha, hl]
      · rfl

theorem find?_congr_of_mem {p q : α → Bool} {l : List α} (h : ∀ a ∈ l, p a = q a) :
    l.find? p = l.find? q := by
  induction l with
  | nil => rfl
  | cons a l ih =>
      rw [List.find?_cons, List.find?_cons, h a (List.mem_cons_self ..),
        ih fun b hb => h b (List.mem_cons_of_mem _ hb)]

theorem earlyExit_eq
    (hkeep : ∀ s a b, live s a = true → stops a = false → b ≠ a → live (f s a) b = live s b)
    {l : List α} (hl : l.Nodup) (s : σ) :
    earlyExit live stops f l s
      = ((actedOn live stops s l).foldl f s, l.find? fun a => live s a && stops a) := by
  induction l generalizing s with
  | nil => rfl
  | cons a l ih =>
      obtain ⟨ha, hl⟩ := List.nodup_cons.mp hl
      rw [earlyExit, actedOn, List.takeWhile_cons, List.find?_cons]
      cases hlive : live s a with
      | false =>
          rw [if_neg Bool.false_ne_true, ih hl]
          simp [actedOn, hlive]
      | true =>
          cases hstops : stops a with
          | true => simp
          | false =>
              have hsame : ∀ b ∈ l, live (f s a) b = live s b := fun b hb =>
                hkeep s a b hlive hstops fun heq => ha (heq ▸ hb)
              have hfind : (l.find? fun b => live (f s a) b && stops b)
                  = l.find? fun b => live s b && stops b :=
                find?_congr_of_mem fun b hb => by rw [hsame b hb]
              rw [if_pos rfl, if_neg Bool.false_ne_true, ih hl, actedOn_congr hsame, hfind]
              simp [actedOn, hlive]

end Loop

/-! ## Lists in ascending order -/

section Sorted

variable {α : Type*} [LinearOrder α] {l : List α}

/-- In ascending order the elements before the first that fails a test are
those below which none fails it. -/
theorem mem_takeWhile_of_sorted (hl : l.Pairwise (· < ·)) (f : α → Bool) {a : α} :
    a ∈ l.takeWhile f ↔ a ∈ l ∧ ∀ b ∈ l, b ≤ a → f b = true := by
  induction l with
  | nil => simp
  | cons x xs ih =>
      obtain ⟨hx, hxs⟩ := List.pairwise_cons.mp hl
      rw [List.takeWhile_cons]
      split
      · next hf =>
          rw [List.mem_cons, ih hxs]
          constructor
          · rintro (rfl | ⟨hmem, hall⟩)
            · refine ⟨List.mem_cons_self .., ?_⟩
              rintro b hb hle
              rcases List.mem_cons.mp hb with rfl | hb
              · exact hf
              · exact absurd hle (not_le_of_gt (hx b hb))
            · refine ⟨List.mem_cons_of_mem _ hmem, ?_⟩
              rintro b hb hle
              rcases List.mem_cons.mp hb with rfl | hb
              · exact hf
              · exact hall b hb hle
          · rintro ⟨hmem, hall⟩
            rcases List.mem_cons.mp hmem with rfl | hmem
            · exact .inl rfl
            · exact .inr ⟨hmem, fun b hb => hall b (List.mem_cons_of_mem _ hb)⟩
      · next hf =>
          refine iff_of_false List.not_mem_nil ?_
          rintro ⟨hmem, hall⟩
          refine hf (hall x (List.mem_cons_self ..) ?_)
          rcases List.mem_cons.mp hmem with rfl | hmem
          · exact le_rfl
          · exact (hx a hmem).le

/-- In ascending order the first element that passes a test is the least one. -/
theorem find?_eq_some_of_sorted (hl : l.Pairwise (· < ·)) (f : α → Bool) {a : α} :
    l.find? f = some a ↔ a ∈ l ∧ f a = true ∧ ∀ b ∈ l, b < a → f b = false := by
  induction l with
  | nil => simp
  | cons x xs ih =>
      obtain ⟨hx, hxs⟩ := List.pairwise_cons.mp hl
      cases hf : f x with
      | true =>
          rw [List.find?_cons_of_pos hf, Option.some.injEq]
          constructor
          · rintro rfl
            refine ⟨List.mem_cons_self .., hf, ?_⟩
            rintro b hb hlt
            rcases List.mem_cons.mp hb with rfl | hb
            · exact absurd hlt (lt_irrefl _)
            · exact absurd hlt (lt_asymm (hx b hb))
          · rintro ⟨hmem, -, hall⟩
            rcases List.mem_cons.mp hmem with rfl | hmem
            · rfl
            · rw [hall x (List.mem_cons_self ..) (hx a hmem)] at hf
              cases hf
      | false =>
          rw [List.find?_cons_of_neg (by simp [hf]), ih hxs]
          constructor
          · rintro ⟨hmem, ha, hall⟩
            refine ⟨List.mem_cons_of_mem _ hmem, ha, ?_⟩
            rintro b hb hlt
            rcases List.mem_cons.mp hb with rfl | hb
            · exact hf
            · exact hall b hb hlt
          · rintro ⟨hmem, ha, hall⟩
            rcases List.mem_cons.mp hmem with rfl | hmem
            · rw [hf] at ha
              cases ha
            · exact ⟨hmem, ha, fun b hb => hall b (List.mem_cons_of_mem _ hb)⟩

end Sorted

end Nimloth
