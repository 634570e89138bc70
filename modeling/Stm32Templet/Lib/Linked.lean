import Mathlib.Data.List.Basic
import Mathlib.Tactic.Cases

/-! # Linked lists

Nodes of any type that point to each other, the pointers being functions to `Option α`.
`Chain next first l`: following `next` from `first` one meets the nodes `l` and then the end.
`Links next prev before first l`: the same, and the nodes also point back, the first one to
`before`.

The edits (`Links.push`, `Links.erase`, `Chain.push`) are stated for any pointers that have
changed where the edit changes them, so that the nodes may be fields of larger records. -/

namespace Linked

variable {α : Type}

/-- The nodes `l` are met from `first` on. -/
def Chain (next : α → Option α) : Option α → List α → Prop
  | first, [] => first = none
  | first, a :: l => first = some a ∧ Chain next (next a) l

/-- The nodes `l` are met from `first` on, and point back. -/
def Links (next prev : α → Option α) : Option α → Option α → List α → Prop
  | _, first, [] => first = none
  | before, first, a :: l =>
      first = some a ∧ prev a = before ∧ Links next prev (some a) (next a) l

variable {next next' prev prev' : α → Option α} {before first : Option α} {l l₁ l₂ : List α}
  {a b : α}

theorem Chain.congr (h : Chain next first l) (hnext : ∀ x ∈ l, next' x = next x) :
    Chain next' first l := by
  induction l generalizing first with
  | nil => exact h
  | cons a l ih =>
      refine ⟨h.1, ?_⟩
      rw [hnext a List.mem_cons_self]
      exact ih h.2 fun x hx => hnext x (List.mem_cons_of_mem a hx)

/-- A node in front. -/
theorem Chain.push (h : Chain next first l) (ha : next' a = first)
    (hnext : ∀ x ∈ l, next' x = next x) : Chain next' (some a) (a :: l) :=
  ⟨rfl, ha ▸ h.congr hnext⟩

theorem Chain.first_eq (h : Chain next first l) : first = l.head? := by
  cases l with
  | nil => exact h
  | cons a l => exact h.1

theorem Links.first_eq (h : Links next prev before first l) : first = l.head? := by
  cases l with
  | nil => exact h
  | cons a l => exact h.1

theorem Links.congr (h : Links next prev before first l) (hnext : ∀ x ∈ l, next' x = next x)
    (hprev : ∀ x ∈ l, prev' x = prev x) : Links next' prev' before first l := by
  induction l generalizing before first with
  | nil => exact h
  | cons a l ih =>
      refine ⟨h.1, (hprev a List.mem_cons_self).trans h.2.1, ?_⟩
      rw [hnext a List.mem_cons_self]
      exact ih h.2.2 (fun x hx => hnext x (List.mem_cons_of_mem a hx))
        fun x hx => hprev x (List.mem_cons_of_mem a hx)

theorem Links.append (h : Links next prev before first (l₁ ++ l₂)) :
    ∃ before' first', Links next prev before' first' l₂ := by
  induction l₁ generalizing before first with
  | nil => exact ⟨before, first, h⟩
  | cons a l₁ ih => exact ih h.2.2

theorem Links.next_eq (h : Links next prev before first (l₁ ++ a :: l₂)) :
    next a = l₂.head? := by
  obtain ⟨_, _, h⟩ := h.append
  exact h.2.2.first_eq

theorem Links.next_mem (h : Links next prev before first l) (ha : a ∈ l) (hb : next a = some b) :
    b ∈ l.tail := by
  obtain ⟨l₁, l₂, rfl⟩ := List.append_of_mem ha
  rw [h.next_eq] at hb
  have hmem := List.mem_of_mem_head? hb
  cases l₁ with
  | nil => exact hmem
  | cons c l₁ => exact List.mem_append_right l₁ (List.mem_cons_of_mem a hmem)

theorem Links.prev_eq (h : Links next prev before first (l₁ ++ a :: l₂)) :
    prev a = l₁.getLast?.or before := by
  induction l₁ generalizing before first with
  | nil => exact h.2.1
  | cons c l₁ ih =>
      rw [ih h.2.2, List.getLast?_cons]
      cases l₁.getLast? <;> rfl

theorem Links.prev_mem (h : Links next prev none first l) (ha : a ∈ l) (hb : prev a = some b) :
    b ∈ l := by
  obtain ⟨l₁, l₂, rfl⟩ := List.append_of_mem ha
  rw [h.prev_eq, Option.or_none] at hb
  exact List.mem_append_left _ (List.mem_of_getLast? hb)

/-- Nothing is in front of the first node, and of no other. -/
theorem Links.prev_eq_none (h : Links next prev none first l) (ha : a ∈ l) (hnodup : l.Nodup) :
    prev a = none ↔ first = some a := by
  obtain ⟨l₁, l₂, rfl⟩ := List.append_of_mem ha
  rw [h.prev_eq, h.first_eq]
  cases l₁ with
  | nil => simp
  | cons c l₁ =>
      have hca : c ≠ a := fun he => (List.nodup_cons.mp hnodup).1
        (he ▸ List.mem_append_right l₁ List.mem_cons_self)
      refine iff_of_false ?_ fun he => hca (Option.some.inj he)
      rw [List.getLast?_cons]
      exact nofun

variable [DecidableEq α]

/-- A node in front, to which the node that was the first points back. -/
theorem Links.push (h : Links next prev none first l) (ha : a ∉ l) (hnodup : l.Nodup)
    (hanext : next' a = first) (haprev : prev' a = none) (hnext : ∀ x ≠ a, next' x = next x)
    (hprev : ∀ x ≠ a, prev' x = if first = some x then some a else prev x) :
    Links next' prev' none (some a) (a :: l) := by
  refine ⟨rfl, haprev, ?_⟩
  rw [hanext]
  have hne : ∀ x ∈ l, x ≠ a := fun x hx he => ha (he ▸ hx)
  cases l with
  | nil => exact h
  | cons b l =>
      obtain ⟨hfirst, _, hl⟩ := h
      have hb := hne b List.mem_cons_self
      refine ⟨hfirst, by rw [hprev b hb, if_pos hfirst], ?_⟩
      rw [hnext b hb]
      refine hl.congr (fun x hx => hnext x (hne x (List.mem_cons_of_mem b hx))) fun x hx => ?_
      rw [hprev x (hne x (List.mem_cons_of_mem b hx)), if_neg]
      rw [hfirst]
      intro he
      exact (List.nodup_cons.mp hnodup).1 (Option.some.inj he ▸ hx)

/-- A node is taken out: its neighbours point to each other then. -/
theorem Links.erase (h : Links next prev before first l) (ha : a ∈ l) (hnodup : l.Nodup)
    (hbefore : ∀ x ∈ l, before ≠ some x)
    (hnext : ∀ x ≠ a, next' x = if prev a = some x then next a else next x)
    (hprev : ∀ x ≠ a, prev' x = if next a = some x then prev a else prev x) :
    Links next' prev' before (if first = some a then next a else first) (l.erase a) := by
  induction l generalizing before first with
  | nil => cases ha
  | cons c l ih =>
      obtain ⟨hfirst, hback, hl⟩ := h
      obtain ⟨hc, hnodup⟩ := List.nodup_cons.mp hnodup
      by_cases hca : c = a
      · subst hca
        rw [List.erase_cons_head, if_pos hfirst]
        have hne : ∀ x ∈ l, x ≠ c := fun x hx he => hc (he ▸ hx)
        have hnext' : ∀ x ∈ l, next' x = next x := by
          intro x hx
          rw [hnext x (hne x hx), if_neg]
          rw [hback]
          exact hbefore x (List.mem_cons_of_mem c hx)
        cases l with
        | nil => exact hl
        | cons b l =>
            obtain ⟨hb, _, hl⟩ := hl
            refine ⟨hb, ?_, ?_⟩
            · rw [hprev b (hne b List.mem_cons_self), if_pos hb, hback]
            · rw [hnext' b List.mem_cons_self]
              refine hl.congr (fun x hx => hnext' x (List.mem_cons_of_mem b hx)) fun x hx => ?_
              rw [hprev x (hne x (List.mem_cons_of_mem b hx)), if_neg]
              rw [hb]
              intro he
              exact (List.nodup_cons.mp hnodup).1 (Option.some.inj he ▸ hx)
      · have hal : a ∈ l := (List.mem_cons.mp ha).resolve_left fun he => hca he.symm
        rw [List.erase_cons_tail (by simpa using hca)]
        have hrest := ih hl hal hnodup fun x hx he => hc (Option.some.inj he ▸ hx)
        refine ⟨?_, ?_, ?_⟩
        · rw [if_neg, hfirst]
          rw [hfirst]
          exact fun he => hca (Option.some.inj he)
        · -- `c` is the first node, so it is not behind `a`
          rw [hprev c hca, if_neg, hback]
          intro he
          exact hc (List.mem_of_mem_tail (hl.next_mem hal he))
        · -- `c` is in front of `a` if `a` is behind `c`
          have hiff : prev a = some c ↔ next c = some a := by
            obtain ⟨l₁, l₂, rfl⟩ := List.append_of_mem hal
            rw [hl.prev_eq, hl.first_eq]
            cases l₁ with
            | nil => simp
            | cons d l₁ =>
                have hda : d ≠ a := fun he => (List.nodup_cons.mp hnodup).1
                  (he ▸ List.mem_append_right l₁ List.mem_cons_self)
                have hlast : (d :: l₁).getLast? ≠ some c := fun he =>
                  hc (List.mem_append_left _ (List.mem_of_getLast? he))
                rw [List.getLast?_cons] at hlast ⊢
                exact iff_of_false hlast fun he => hda (Option.some.inj he)
          rw [hnext c hca]
          simp only [hiff]
          exact hrest

end Linked
