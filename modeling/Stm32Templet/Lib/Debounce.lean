import Mathlib.Data.List.ReduceOption

/-! # Debouncing by run length

A two-valued signal is sampled; a change of its level counts once the samples have agreed for
`o + 1` turns, and a level that is held on for `l + 1` turns is reported once more.  `edge o l`
is this rule as a function of the whole history: of the edges reported so far, and of the
samples, the current one included.  Whatever the samples are, the edges reported are presses,
each with at most one report of being held, and each released before the next one
(`Pressing.edge`). -/

namespace Debounce

/-! ### Runs at the end of a list -/

section Streak

variable {α : Type} {p : α → Bool}

/-- The number of elements at the end of `l` that satisfy `p`. -/
def streak (p : α → Bool) (l : List α) : ℕ := (l.reverse.takeWhile p).length

@[simp] theorem streak_nil : streak p [] = 0 := rfl

theorem streak_concat (l : List α) (a : α) :
    streak p (l ++ [a]) = if p a then streak p l + 1 else 0 := by
  rw [streak, List.reverse_append, List.reverse_singleton, List.singleton_append,
    List.takeWhile_cons]
  split <;> rfl

theorem streak_map {β : Type} (f : β → α) (l : List β) :
    streak p (l.map f) = streak (fun b => p (f b)) l := by
  rw [streak, ← List.map_reverse, List.takeWhile_map, List.length_map]
  rfl

/-- The last sample decides which of the two runs is not empty. -/
theorem streak_not (samples : List Bool) : streak id samples = 0 ∨ streak not samples = 0 := by
  rcases List.eq_nil_or_concat samples with rfl | ⟨l, a, rfl⟩
  · exact Or.inl rfl
  · rw [List.concat_eq_append, streak_concat, streak_concat]
    cases a
    · exact Or.inl rfl
    · exact Or.inr rfl

end Streak

/-! ### The rule -/

inductive Edge where
  | pressed
  | released
  | held
  deriving DecidableEq

def downAfter (down : Bool) : Option Edge → Bool
  | some .pressed => true
  | some .released => false
  | _ => down

def heldAfter (held : Bool) : Option Edge → Bool
  | some .pressed => false
  | some .held => true
  | _ => held

/-- The level: whether the last press was not released yet. -/
def isDown (es : List (Option Edge)) : Bool := es.foldl downAfter false

/-- Whether it was reported since the last press that it is held. -/
def wasHeld (es : List (Option Edge)) : Bool := es.foldl heldAfter false

@[simp] theorem isDown_concat (es : List (Option Edge)) (e : Option Edge) :
    isDown (es ++ [e]) = downAfter (isDown es) e := by
  simp [isDown]

@[simp] theorem wasHeld_concat (es : List (Option Edge)) (e : Option Edge) :
    wasHeld (es ++ [e]) = heldAfter (wasHeld es) e := by
  simp [wasHeld]

/-- What is reported at the last of the samples, `es` being the reports before. -/
def edge (o l : ℕ) (es : List (Option Edge)) (samples : List Bool) : Option Edge :=
  if isDown es = false ∧ streak id samples = o + 1 then some .pressed
  else if isDown es = true ∧ streak not samples = o + 1 then some .released
  else if isDown es = true ∧ wasHeld es = false ∧ streak id samples = l + 1 then some .held
  else none

variable {o l : ℕ} {es : List (Option Edge)} {samples : List Bool}

theorem edge_eq_pressed :
    edge o l es samples = some .pressed ↔ isDown es = false ∧ streak id samples = o + 1 := by
  unfold edge
  constructor
  · intro h
    by_contra hn
    rw [if_neg hn] at h
    split_ifs at h <;> cases h
  · intro h
    rw [if_pos h]

theorem edge_eq_released :
    edge o l es samples = some .released ↔ isDown es = true ∧ streak not samples = o + 1 := by
  unfold edge
  constructor
  · intro h
    by_contra hn
    rw [if_neg hn] at h
    split_ifs at h <;> cases h
  · intro h
    rw [if_neg (by simp [h.1]), if_pos h]

theorem edge_eq_held :
    edge o l es samples = some .held ↔
      isDown es = true ∧ wasHeld es = false ∧ streak id samples = l + 1 := by
  unfold edge
  constructor
  · intro h
    by_contra hn
    rw [if_neg hn] at h
    split_ifs at h <;> cases h
  · intro h
    have hoff := streak_not samples
    rw [if_neg (by simp [h.1]), if_neg (by omega), if_pos h]

theorem edge_active (o l : ℕ) (es : List (Option Edge)) (samples : List Bool) :
    edge o l es (samples ++ [true]) =
      if isDown es = false ∧ streak id samples = o then some .pressed
      else if isDown es = true ∧ wasHeld es = false ∧ streak id samples = l then some .held
      else none := by
  simp [edge, streak_concat]

theorem edge_inactive (o l : ℕ) (es : List (Option Edge)) (samples : List Bool) :
    edge o l es (samples ++ [false]) =
      if isDown es = true ∧ streak not samples = o then some .released else none := by
  simp [edge, streak_concat]

/-! ### What is reported in the long run -/

/-- Presses that were all released, held or not. -/
inductive Presses : List Edge → Prop where
  | nil : Presses []
  | short {p : List Edge} (h : Presses p) : Presses (p ++ [.pressed, .released])
  | long {p : List Edge} (h : Presses p) : Presses (p ++ [.pressed, .held, .released])

/-- The press that is not released yet. -/
def current (down held : Bool) : List Edge :=
  if down then if held then [.pressed, .held] else [.pressed] else []

/-- The reports so far are presses, the last one perhaps not released yet. -/
def Pressing (es : List (Option Edge)) : Prop :=
  ∃ p, Presses p ∧ es.reduceOption = p ++ current (isDown es) (wasHeld es)

theorem pressing_nil : Pressing [] := ⟨[], .nil, rfl⟩

theorem Pressing.edge (h : Pressing es) (o l : ℕ) (samples : List Bool) :
    Pressing (es ++ [edge o l es samples]) := by
  obtain ⟨p, hp, he⟩ := h
  unfold Pressing
  simp only [List.reduceOption_append, List.reduceOption_singleton, isDown_concat,
    wasHeld_concat, he]
  cases hedge : Debounce.edge o l es samples with
  | none => exact ⟨p, hp, by simp [downAfter, heldAfter]⟩
  | some e =>
      cases e with
      | pressed =>
          have hup := (edge_eq_pressed.mp hedge).1
          exact ⟨p, hp, by simp [hup, current, downAfter, heldAfter]⟩
      | released =>
          have hdown := (edge_eq_released.mp hedge).1
          cases hheld : wasHeld es with
          | false =>
              exact ⟨_, hp.short, by simp [hdown, current, downAfter]⟩
          | true =>
              exact ⟨_, hp.long, by simp [hdown, current, downAfter]⟩
      | held =>
          obtain ⟨hdown, hheld, _⟩ := edge_eq_held.mp hedge
          exact ⟨p, hp, by simp [hdown, hheld, current, downAfter, heldAfter]⟩

/-- Releasing the last press completes the presses. -/
theorem Pressing.completed (h : Pressing es) : ∃ p, Presses p ∧ es.reduceOption <+: p := by
  obtain ⟨p, hp, he⟩ := h
  rw [he]
  unfold current
  split
  · split
    · exact ⟨_, hp.long, [.released], by simp⟩
    · exact ⟨_, hp.short, [.released], by simp⟩
  · exact ⟨p, hp, by simp⟩

end Debounce
