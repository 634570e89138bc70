import Mathlib.Data.List.Infix
import Mathlib.Tactic.Cases

/-! # Runs of a labelled system

A system is a partial step function `step : σ → ε → Option σ`; an event that is not enabled
gives `none`.  `exec step s es` is the state reached from `s` by the events `es`.
`Along step C s es` says that every event of the run is taken in a state where `C` allows
it.

An invariant that the allowed events preserve holds in every state the run reaches
(`exec_invariant`).  If every event is matched by events of a second system, then so is every
run, event by event (`Simulated`, `exec_simulates`).  The other rules characterise the runs that
`C` allows: by what holds in all states on the way (`along_iff`), by what holds in the last one
(`exec_iff`), or by another condition on the events (`along_congr`).

`trace step f s es` is what the events of a run produce, one after the other; `exec_trace` is the
rule for a relation between the states of both systems and what has been produced so far. -/

namespace Runs

variable {σ ε : Type} (step : σ → ε → Option σ)

/-- The state reached by a list of events. -/
def exec : σ → List ε → Option σ
  | s, [] => some s
  | s, e :: es => (step s e).bind fun s' => exec s' es

/-- Every event of the run is allowed by `C` in the state it is taken in. -/
def Along (C : σ → ε → Prop) : σ → List ε → Prop
  | _, [] => True
  | s, e :: es => C s e ∧ ∀ s', step s e = some s' → Along C s' es

variable {step} {C : σ → ε → Prop}

@[simp] theorem exec_nil (s : σ) : exec step s [] = some s := rfl

theorem exec_cons {s s' : σ} {e : ε} {es : List ε} :
    exec step s (e :: es) = some s' ↔ ∃ t, step s e = some t ∧ exec step t es = some s' := by
  simp [exec, Option.bind_eq_some_iff]

theorem exec_concat {s s' : σ} {e : ε} {es : List ε} :
    exec step s (es ++ [e]) = some s' ↔ ∃ t, exec step s es = some t ∧ step t e = some s' := by
  induction es generalizing s with
  | nil => simp [exec]
  | cons d es ih =>
      rw [List.cons_append, exec_cons]
      constructor
      · intro h
        obtain ⟨u, hu, h⟩ := h
        obtain ⟨t, ht, hs⟩ := ih.mp h
        exact ⟨t, exec_cons.mpr ⟨u, hu, ht⟩, hs⟩
      · intro h
        obtain ⟨t, ht, hs⟩ := h
        obtain ⟨u, hu, ht⟩ := exec_cons.mp ht
        exact ⟨u, hu, ih.mpr ⟨t, ht, hs⟩⟩

instance decidableAlong [∀ s e, Decidable (C s e)] :
    ∀ (s : σ) (es : List ε), Decidable (Along step C s es)
  | _, [] => isTrue trivial
  | s, e :: es =>
      have : Decidable (∀ s', step s e = some s' → Along step C s' es) :=
        match _h : step s e with
        | none => isTrue fun _ hs => nomatch hs
        | some t => match decidableAlong t es with
          | isTrue ht => isTrue fun _ hs => Option.some.inj hs ▸ ht
          | isFalse hf => isFalse fun ha => hf (ha t rfl)
      inferInstanceAs (Decidable (C s e ∧ _))

theorem along_true (s : σ) (es : List ε) : Along step (fun _ _ => True) s es := by
  induction es generalizing s with
  | nil => trivial
  | cons e es ih => exact ⟨trivial, fun t _ => ih t⟩

theorem along_mono {C' : σ → ε → Prop} (hC : ∀ s e, C s e → C' s e) {s : σ} {es : List ε}
    (h : Along step C s es) : Along step C' s es := by
  induction es generalizing s with
  | nil => trivial
  | cons e es ih => exact ⟨hC s e h.1, fun t ht => ih (h.2 t ht)⟩

/-- An invariant kept by the allowed events holds in the state the run reaches. -/
theorem exec_invariant {I : σ → Prop} (hI : ∀ s e s', I s → C s e → step s e = some s' → I s')
    {s s' : σ} {es : List ε} (h₀ : I s) (hC : Along step C s es) (h : exec step s es = some s') :
    I s' := by
  induction es generalizing s with
  | nil => cases h; exact h₀
  | cons e es ih =>
      obtain ⟨t, ht, hs⟩ := exec_cons.mp h
      exact ih (hI s e t h₀ hC.1 ht) (hC.2 t ht) hs

theorem exec_invariant' {I : σ → Prop} (hI : ∀ s e s', I s → step s e = some s' → I s')
    {s s' : σ} {es : List ε} (h₀ : I s) (h : exec step s es = some s') : I s' :=
  exec_invariant (C := fun _ _ => True) (fun s e s' hs _ => hI s e s' hs) h₀ (along_true s es) h

theorem exec_append {s s' : σ} {es₁ es₂ : List ε} :
    exec step s (es₁ ++ es₂) = some s' ↔
      ∃ t, exec step s es₁ = some t ∧ exec step t es₂ = some s' := by
  induction es₁ generalizing s with
  | nil => simp [exec]
  | cons e es₁ ih =>
      rw [List.cons_append, exec_cons]
      constructor
      · rintro ⟨u, hu, h⟩
        obtain ⟨t, ht, hs⟩ := ih.mp h
        exact ⟨t, exec_cons.mpr ⟨u, hu, ht⟩, hs⟩
      · rintro ⟨t, h, hs⟩
        obtain ⟨u, hu, ht⟩ := exec_cons.mp h
        exact ⟨u, hu, ih.mpr ⟨t, ht, hs⟩⟩

theorem along_append {s : σ} {es₁ es₂ : List ε} :
    Along step C s (es₁ ++ es₂) ↔
      Along step C s es₁ ∧ ∀ t, exec step s es₁ = some t → Along step C t es₂ := by
  induction es₁ generalizing s with
  | nil => exact ⟨fun h => ⟨trivial, fun t ht => Option.some.inj ht ▸ h⟩, fun h => h.2 s rfl⟩
  | cons e es₁ ih =>
      constructor
      · rintro ⟨hc, h⟩
        refine ⟨⟨hc, fun u hu => (ih.mp (h u hu)).1⟩, fun t ht => ?_⟩
        obtain ⟨u, hu, ht⟩ := exec_cons.mp ht
        exact (ih.mp (h u hu)).2 t ht
      · rintro ⟨⟨hc, h₁⟩, h₂⟩
        exact ⟨hc, fun u hu => ih.mpr ⟨h₁ u hu, fun t ht => h₂ t (exec_cons.mpr ⟨u, hu, ht⟩)⟩⟩

theorem along_of_mem {s : σ} {es : List ε} (h : ∀ e ∈ es, ∀ s, C s e) : Along step C s es := by
  induction es generalizing s with
  | nil => trivial
  | cons e es ih =>
      exact ⟨h e List.mem_cons_self s, fun _ _ => ih fun d hd => h d (List.mem_cons_of_mem e hd)⟩

section Simulation

variable {τ α : Type}

variable (step) in
/-- A run of the system, and beside it a run of a second one: the list of events that the second
makes for an event of the first is one that `L` has for it, and all states are related by `R`. -/
inductive Simulated (step' : τ → α → Option τ) (R : σ → τ → Prop)
    (L : σ → τ → ε → List α → Prop) : σ → τ → List ε → σ → τ → Prop where
  | nil {s : σ} {t : τ} (h : R s t) : Simulated step' R L s t [] s t
  | cons {s s₁ s₂ : σ} {t t₁ t₂ : τ} {e : ε} {es : List ε} {as : List α} (h : R s t)
      (hs : step s e = some s₁) (hL : L s t e as) (ht : exec step' t as = some t₁)
      (hes : Simulated step' R L s₁ t₁ es s₂ t₂) : Simulated step' R L s t (e :: es) s₂ t₂

variable {step' : τ → α → Option τ} {R : σ → τ → Prop} {L : σ → τ → ε → List α → Prop}
  {s s' : σ} {t t' : τ} {es : List ε}

theorem exec_simulates (hR : ∀ s t e s', R s t → C s e → step s e = some s' →
      ∃ as t', L s t e as ∧ exec step' t as = some t' ∧ R s' t')
    (h₀ : R s t) (hC : Along step C s es) (h : exec step s es = some s') :
    ∃ t', Simulated step step' R L s t es s' t' := by
  induction es generalizing s t with
  | nil =>
      cases h
      exact ⟨t, .nil h₀⟩
  | cons e es ih =>
      obtain ⟨u, hu, hs⟩ := exec_cons.mp h
      obtain ⟨as, v, hL, hv, hR'⟩ := hR s t e u h₀ hC.1 hu
      obtain ⟨t', ht'⟩ := ih hR' (hC.2 u hu) hs
      exact ⟨t', .cons h₀ hu hL hv ht'⟩

theorem Simulated.rel (h : Simulated step step' R L s t es s' t') : R s' t' := by
  induction h with
  | nil h => exact h
  | cons _ _ _ _ _ ih => exact ih

theorem Simulated.mono {R' : σ → τ → Prop} (hR : ∀ s t, R s t → R' s t)
    (h : Simulated step step' R L s t es s' t') : Simulated step step' R' L s t es s' t' := by
  induction h with
  | nil h => exact .nil (hR _ _ h)
  | cons h hs hL ht _ ih => exact .cons (hR _ _ h) hs hL ht ih

/-- What the second system does is a run of it. -/
theorem Simulated.exec (h : Simulated step step' R L s t es s' t') :
    ∃ as, exec step' t as = some t' := by
  induction h with
  | nil => exact ⟨[], rfl⟩
  | cons _ _ _ ht _ ih =>
      obtain ⟨as, has⟩ := ih
      exact ⟨_ ++ as, exec_append.mpr ⟨_, ht, has⟩⟩

end Simulation

section Trace

variable {α τ : Type} {f : σ → ε → List α}

variable (step f) in
/-- What the events of a run produce. -/
def trace : σ → List ε → List α
  | _, [] => []
  | s, e :: es => f s e ++ (step s e).elim [] fun s' => trace s' es

@[simp] theorem trace_nil (s : σ) : trace step f s [] = [] := rfl

theorem trace_cons {s t : σ} {e : ε} {es : List ε} (h : step s e = some t) :
    trace step f s (e :: es) = f s e ++ trace step f t es := by
  rw [trace, h]
  rfl

theorem exec_trace {R : σ → τ → List α → Prop}
    (hR : ∀ s t out e s', R s t out → C s e → step s e = some s' → ∃ t', R s' t' (out ++ f s e))
    {s s' : σ} {t : τ} {es : List ε} (out : List α) (h₀ : R s t out) (hC : Along step C s es)
    (h : exec step s es = some s') : ∃ t', R s' t' (out ++ trace step f s es) := by
  induction es generalizing s t out with
  | nil =>
      cases h
      exact ⟨t, by rwa [trace_nil, List.append_nil]⟩
  | cons e es ih =>
      obtain ⟨u, hu, hs⟩ := exec_cons.mp h
      obtain ⟨v, hv⟩ := hR s t out e u h₀ hC.1 hu
      obtain ⟨t', ht'⟩ := ih _ hv (hC.2 u hu) hs
      exact ⟨t', by rwa [trace_cons hu, ← List.append_assoc]⟩

end Trace

/-- Conditions that agree as long as an invariant holds. -/
theorem along_congr {I : σ → Prop} {A C' : σ → ε → Prop}
    (hI : ∀ s e s', I s → A s e → step s e = some s' → I s')
    (hC : ∀ s e, I s → A s e → (C s e ↔ C' s e)) {s : σ} {es : List ε} (h₀ : I s)
    (hA : Along step A s es) : Along step C s es ↔ Along step C' s es := by
  induction es generalizing s with
  | nil => exact Iff.rfl
  | cons e es ih =>
      refine and_congr (hC s e h₀ hA.1) (forall_congr' fun t => forall_congr' fun ht => ?_)
      exact ih (hI s e t h₀ hA.1 ht) (hA.2 t ht)

/-- Among the runs whose events `A` allows: a property holds after every initial part of the
run exactly if `C` allows its events too, provided that it follows from an invariant of these
events and that an event outside `C` makes it fail. -/
theorem along_iff {I F : σ → Prop} {A : σ → ε → Prop}
    (hI : ∀ s e s', I s → A s e → C s e → step s e = some s' → I s') (hF : ∀ s, I s → F s)
    (hC : ∀ s e, I s → A s e → (∀ s', step s e = some s' → F s') → C s e)
    {s : σ} {es : List ε} (h₀ : I s) (hA : Along step A s es) :
    (∀ es₁ s', es₁ <+: es → exec step s es₁ = some s' → F s') ↔ Along step C s es := by
  induction es generalizing s with
  | nil =>
      refine iff_of_true (fun es₁ s' hp hs => ?_) trivial
      obtain rfl := List.prefix_nil.mp hp
      cases hs
      exact hF s h₀
  | cons e es ih =>
      constructor
      · intro hall
        have hc : C s e := hC s e h₀ hA.1 fun s' hs =>
          hall [e] s' (List.prefix_append [e] es) (exec_cons.mpr ⟨s', hs, rfl⟩)
        refine ⟨hc, fun t ht => (ih (hI s e t h₀ hA.1 hc ht) (hA.2 t ht)).mp ?_⟩
        exact fun es₁ s' hp hs =>
          hall (e :: es₁) s' ((List.prefix_cons_inj e).mpr hp) (exec_cons.mpr ⟨t, ht, hs⟩)
      · rintro ⟨hc, hrest⟩ es₁ s' hp hs
        cases es₁ with
        | nil =>
            cases hs
            exact hF s h₀
        | cons e₁ es₁ =>
            obtain ⟨rfl, hp'⟩ := List.cons_prefix_cons.mp hp
            obtain ⟨t, ht, hs⟩ := exec_cons.mp hs
            have hI' := hI s e₁ t h₀ hA.1 hc ht
            exact (ih hI' (hA.2 t ht)).mpr (hrest t ht) es₁ s' hp' hs

/-- A property that every event keeps exactly if `C` allows the event. -/
theorem exec_iff {I F : σ → Prop} (hI : ∀ s e s', I s → step s e = some s' → I s')
    (hF : ∀ s e s', I s → step s e = some s' → (F s' ↔ F s ∧ C s e))
    {s s' : σ} {es : List ε} (h₀ : I s) (h : exec step s es = some s') :
    F s' ↔ F s ∧ Along step C s es := by
  induction es generalizing s with
  | nil => cases h; exact (and_iff_left trivial).symm
  | cons e es ih =>
      obtain ⟨t, ht, hs⟩ := exec_cons.mp h
      rw [ih (hI s e t h₀ ht) hs, hF s e t h₀ ht, and_assoc]
      refine and_congr_right fun _ => and_congr_right fun _ => ?_
      exact ⟨fun ha u hu => Option.some.inj (ht.symm.trans hu) ▸ ha, fun ha => ha t ht⟩

end Runs
