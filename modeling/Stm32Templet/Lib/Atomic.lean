import Mathlib.Logic.Function.Basic

/-! # Programs over atomic actions

A sequential routine whose accesses to shared state may be separated by preemption is a
tree of type `Prog S α`: it either returns, or performs one atomic action of the signature
`S` and continues with the result.  The tree has two readings.

* `run` executes it alone, without interference.
* A scheduler that holds the residual tree of a thread executes one action at a time
  (`Prog.act a k` performs `a` and leaves `k r`), in any order with other threads.

`Safe P Q p v` is the proof obligation of one thread against a local specification `P`: a
thread with private view `v` may only perform actions whose precondition holds of its view,
learns what the postcondition says, and ends in a view satisfying `Q`.  `Sound P exec I`
says that the invariant `I` of the shared state honours `P`.  Then `Safe` is kept by every
single action (`Safe.step`) and gives the postcondition of an uninterrupted run
(`Safe.run`). -/

namespace Atomic

/-- Atomic actions and their results. -/
structure Sig where
  Act : Type
  Res : Act → Type

/-- Programs over the atomic actions of `S`. -/
inductive Prog (S : Sig) (α : Type) : Type where
  | ret (a : α) : Prog S α
  | act (a : S.Act) (k : S.Res a → Prog S α) : Prog S α

variable {S : Sig} {σ V α β : Type}

namespace Prog

/-- Sequencing: the leaves of `p` are continued by `f`. -/
def bind : Prog S α → (α → Prog S β) → Prog S β
  | ret a, f => f a
  | act a k, f => act a (fun r => bind (k r) f)

instance : Monad (Prog S) where
  pure := ret
  bind := bind

@[simp] theorem pure_eq (a : α) : (pure a : Prog S α) = ret a := rfl

@[simp] theorem ret_bind (a : α) (f : α → Prog S β) : (ret a >>= f) = f a := rfl

@[simp] theorem act_bind (a : S.Act) (k : S.Res a → Prog S α) (f : α → Prog S β) :
    (act a k >>= f) = act a (fun r => k r >>= f) := rfl

theorem bind_assoc {γ : Type} (p : Prog S α) (f : α → Prog S β) (g : β → Prog S γ) :
    (p >>= f) >>= g = p >>= fun a => f a >>= g := by
  induction p with
  | ret a => rfl
  | act a k ih => simp only [act_bind, ih]

/-- The uninterrupted run of a program. -/
def run (exec : (a : S.Act) → σ → S.Res a × σ) : Prog S α → σ → α × σ
  | ret a, s => (a, s)
  | act a k, s => run exec (k (exec a s).1) (exec a s).2

variable (exec : (a : S.Act) → σ → S.Res a × σ)

@[simp] theorem run_ret (a : α) (s : σ) : run exec (ret a) s = (a, s) := rfl

@[simp] theorem run_act (a : S.Act) (k : S.Res a → Prog S α) (s : σ) :
    run exec (act a k) s = run exec (k (exec a s).1) (exec a s).2 := rfl

theorem run_bind (p : Prog S α) (f : α → Prog S β) (s : σ) :
    run exec (p >>= f) s = run exec (f (run exec p s).1) (run exec p s).2 := by
  induction p generalizing s with
  | ret a => rfl
  | act a k ih => exact ih _ _

theorem run_ite (c : Prop) [Decidable c] (p q : Prog S α) (s : σ) :
    run exec (if c then p else q) s = if c then run exec p s else run exec q s := by
  split <;> rfl

end Prog

namespace Prog

/-- The values a program may return, whatever the results of its actions are. -/
def MayReturn : Prog S α → α → Prop
  | ret a, b => a = b
  | act _ k, b => ∃ r, (k r).MayReturn b

@[simp] theorem mayReturn_ret (a b : α) : (ret a : Prog S α).MayReturn b ↔ a = b := Iff.rfl

@[simp] theorem mayReturn_act (a : S.Act) (k : S.Res a → Prog S α) (b : α) :
    (act a k).MayReturn b ↔ ∃ r, (k r).MayReturn b := Iff.rfl

end Prog

/-! ### Two signatures -/

/-- The actions of both signatures. -/
abbrev Sig.sum (S T : Sig) : Sig := ⟨S.Act ⊕ T.Act, Sum.elim S.Res T.Res⟩

namespace Prog

variable {T : Sig}

/-- A program over the first of two signatures. -/
def inl : Prog S α → Prog (S.sum T) α
  | ret a => ret a
  | act a k => act (Sum.inl a) fun r => inl (k r)

end Prog

/-! ### Local specifications -/

/-- What a thread may do with its private view, and what it learns from doing it. -/
structure Spec (S : Sig) (V : Type) where
  pre : V → S.Act → Prop
  post : V → (a : S.Act) → S.Res a → V → Prop

/-- The program `p`, started in the private view `v`, keeps to the specification `P` and
can only return in a view satisfying `Q`. -/
def Safe (P : Spec S V) (Q : α → V → Prop) : Prog S α → V → Prop
  | .ret a, v => Q a v
  | .act a k, v => P.pre v a ∧ ∀ r v', P.post v a r v' → Safe P Q (k r) v'

variable {P : Spec S V} {Q Q' : α → V → Prop} {v : V}

@[simp] theorem safe_ret (a : α) : Safe P Q (.ret a) v ↔ Q a v := Iff.rfl

@[simp] theorem safe_act (a : S.Act) (k : S.Res a → Prog S α) :
    Safe P Q (.act a k) v ↔ P.pre v a ∧ ∀ r v', P.post v a r v' → Safe P Q (k r) v' := Iff.rfl

/-- Sequencing: the second program is checked in the views the first may return in. -/
theorem safe_bind {p : Prog S α} {f : α → Prog S β} {Q : β → V → Prop} :
    Safe P Q (p >>= f) v ↔ Safe P (fun a v' => Safe P Q (f a) v') p v := by
  induction p generalizing v with
  | ret a => exact Iff.rfl
  | act a k ih =>
      simp only [Prog.act_bind, safe_act]
      exact and_congr_right fun _ => forall_congr' fun r => forall_congr' fun v' =>
        imp_congr_right fun _ => ih r

theorem Safe.mono {p : Prog S α} (h : Safe P Q p v) (hQ : ∀ a v', Q a v' → Q' a v') :
    Safe P Q' p v := by
  induction p generalizing v with
  | ret a => exact hQ a v h
  | act a k ih => exact ⟨h.1, fun r v' hr => ih r (h.2 r v' hr)⟩

/-- Sequencing with an intermediate assertion. -/
theorem Safe.bind {p : Prog S α} {f : α → Prog S β} {R : β → V → Prop} (hp : Safe P Q p v)
    (hf : ∀ a v', Q a v' → Safe P R (f a) v') : Safe P R (p >>= f) v :=
  safe_bind.mpr (hp.mono hf)

/-! ### Soundness -/

/-- The invariant `I` honours `P`: an action whose precondition holds of the view delivers
its postcondition in a new view and restores the invariant. -/
def Sound (P : Spec S V) (exec : (a : S.Act) → σ → S.Res a × σ) (I : σ → V → Prop) : Prop :=
  ∀ s v a, I s v → P.pre v a → ∃ v', P.post v a (exec a s).1 v' ∧ I (exec a s).2 v'

variable {exec : (a : S.Act) → σ → S.Res a × σ} {I : σ → V → Prop} {s : σ}

theorem Safe.step (hs : Sound P exec I) {a : S.Act} {k : S.Res a → Prog S α} (hi : I s v)
    (h : Safe P Q (.act a k) v) :
    ∃ v', P.post v a (exec a s).1 v' ∧ I (exec a s).2 v' ∧ Safe P Q (k (exec a s).1) v' := by
  obtain ⟨v', hp, hi'⟩ := hs s v a hi h.1
  exact ⟨v', hp, hi', h.2 _ _ hp⟩

theorem Safe.run (hs : Sound P exec I) {p : Prog S α} (hi : I s v) (h : Safe P Q p v) :
    ∃ v', Q (p.run exec s).1 v' ∧ I (p.run exec s).2 v' := by
  induction p generalizing s v with
  | ret a => exact ⟨v, h, hi⟩
  | act a k ih =>
      obtain ⟨v', _, hi', h'⟩ := h.step hs hi
      exact ih _ hi' h'

end Atomic
