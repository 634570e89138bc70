import Mathlib.Data.List.Nodup
import Mathlib.Data.List.Perm.Subperm

/-! # Resources in places

A family of lists indexed by places accounts for the resources of a set `U` (`Partitioned`):
every resource is in exactly one place, listed there once.  Moving some resources from one
place to another keeps the account (`Partitioned.move`). -/

namespace Places

variable {β ι : Type}

/-- The lists `place i` share out the resources of `U`. -/
structure Partitioned (U : β → Prop) (place : ι → List β) : Prop where
  nodup : ∀ i, (place i).Nodup
  valid : ∀ {i b}, b ∈ place i → U b
  covers : ∀ {b}, U b → ∃ i, b ∈ place i
  unique : ∀ {i j b}, b ∈ place i → b ∈ place j → i = j

variable {U : β → Prop} {place place' : ι → List β} {i j : ι} {b : β}

theorem Partitioned.existsUnique (h : Partitioned U place) (hb : U b) : ∃! i, b ∈ place i := by
  obtain ⟨i, hi⟩ := h.covers hb
  exact ⟨i, hi, fun _ hj => h.unique hj hi⟩

/-- The resources `bs` go from place `i` to place `j`. -/
theorem Partitioned.move (h : Partitioned U place) (bs : List β) (hij : i ≠ j)
    (hi : (place i).Perm (bs ++ place' i)) (hj : (place' j).Perm (bs ++ place j))
    (hk : ∀ k, k ≠ i → k ≠ j → place' k = place k) : Partitioned U place' := by
  have hdisj : ∀ b ∈ bs, b ∉ place' i := by
    have := (hi.nodup_iff.mp (h.nodup i))
    exact fun b hb hb' => (List.nodup_append.mp this).2.2 b hb b hb' rfl
  have hbs : ∀ b ∈ bs, b ∈ place i := fun b hb => hi.mem_iff.mpr (List.mem_append_left _ hb)
  have hmi : ∀ b, b ∈ place' i → b ∈ place i := fun b hb =>
    hi.mem_iff.mpr (List.mem_append_right _ hb)
  have hmj : ∀ b, b ∈ place' j ↔ b ∈ bs ∨ b ∈ place j := fun b =>
    hj.mem_iff.trans List.mem_append
  -- where a resource is now, in terms of where it was
  have hnow : ∀ k b, b ∈ place' k → b ∈ bs ∧ k = j ∨ b ∉ bs ∧ b ∈ place k := by
    intro k b hb
    by_cases hki : k = i
    · subst hki
      exact Or.inr ⟨fun hb' => hdisj b hb' hb, hmi b hb⟩
    · by_cases hkj : k = j
      · subst hkj
        rcases (hmj b).mp hb with hb' | hb'
        · exact Or.inl ⟨hb', rfl⟩
        · exact Or.inr ⟨fun hb'' => hij (h.unique (hbs b hb'') hb'), hb'⟩
      · rw [hk k hki hkj] at hb
        exact Or.inr ⟨fun hb'' => hki (h.unique hb (hbs b hb'')), hb⟩
  refine ⟨fun k => ?_, fun {k b} hb => ?_, fun {b} hb => ?_, fun {k k' b} hb hb' => ?_⟩
  · by_cases hki : k = i
    · subst hki
      exact (List.nodup_append.mp (hi.nodup_iff.mp (h.nodup k))).2.1
    · by_cases hkj : k = j
      · subst hkj
        refine hj.nodup_iff.mpr (List.nodup_append.mpr ⟨?_, h.nodup k, ?_⟩)
        · exact (List.nodup_append.mp (hi.nodup_iff.mp (h.nodup i))).1
        · rintro b hb _ hb' rfl
          exact hij (h.unique (hbs b hb) hb')
      · rw [hk k hki hkj]
        exact h.nodup k
  · rcases hnow k b hb with ⟨hb', _⟩ | ⟨_, hb'⟩
    · exact h.valid (hbs b hb')
    · exact h.valid hb'
  · by_cases hmem : b ∈ bs
    · exact ⟨j, (hmj b).mpr (Or.inl hmem)⟩
    · obtain ⟨k, hbk⟩ := h.covers hb
      refine ⟨k, ?_⟩
      by_cases hki : k = i
      · subst hki
        exact (List.mem_append.mp (hi.mem_iff.mp hbk)).resolve_left hmem
      · by_cases hkj : k = j
        · subst hkj
          exact (hmj b).mpr (Or.inr hbk)
        · rw [hk k hki hkj]
          exact hbk
  · rcases hnow k b hb with ⟨hbs₁, rfl⟩ | ⟨hn, hb₁⟩ <;>
      rcases hnow k' b hb' with ⟨hbs₂, rfl⟩ | ⟨hn', hb₂⟩
    · rfl
    · exact absurd hbs₁ hn'
    · exact absurd hbs₂ hn
    · exact h.unique hb₁ hb₂

/-- The resources `bs` of a list in front, the others behind. -/
theorem perm_append_filter [DecidableEq β] {l bs : List β} (hl : l.Nodup) (hbs : bs.Nodup)
    (hsub : ∀ b ∈ bs, b ∈ l) : l.Perm (bs ++ l.filter fun b => b ∉ bs) := by
  refine (List.perm_ext_iff_of_nodup hl (List.nodup_append.mpr ⟨hbs, hl.filter _, ?_⟩)).mpr ?_
  · rintro b hb _ hb' rfl
    simp only [List.mem_filter, decide_eq_true_eq] at hb'
    exact hb'.2 hb
  · intro b
    simp only [List.mem_append, List.mem_filter, decide_eq_true_eq]
    constructor
    · intro hb
      by_cases hm : b ∈ bs
      · exact Or.inl hm
      · exact Or.inr ⟨hb, hm⟩
    · rintro (hb | hb)
      · exact hsub b hb
      · exact hb.1

end Places
