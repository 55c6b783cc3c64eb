import Mathlib.Init

/-!
# Runs of a system

A system takes a step on each event its environment lets happen; a step may
fail, which ends the run. An invariant is carried from state to state by one
step lemma, and the run rules here do the induction.
-/

namespace Canvasback.Runs

/-- A step after a step. -/
theorem bind_eq_ok {F α β : Type} {x : Except F α} {f : α → Except F β} {b : β} :
    (x >>= f) = .ok b ↔ ∃ a, x = .ok a ∧ f a = .ok b := by
  cases x with
  | error e => simp [bind, Except.bind]
  | ok a => simp [bind, Except.bind]

structure System (S E F : Type) where
  enabled : S → E → Prop
  step : S → E → Except F S

section
variable {S E F : Type} (sys : System S E F)

/-- Every step of the run is one `P` allows. -/
def Meets (P : S → E → Prop) : S → List E → Prop
  | _, [] => True
  | s, e :: es => P s e ∧ ∀ s', sys.step s e = .ok s' → Meets P s' es

/-- The environment lets the events happen one after the other. -/
def Feasible : S → List E → Prop := Meets sys sys.enabled

/-- `Good` holds of every state the run comes to. -/
def Always (Good : S → Prop) : S → List E → Prop
  | s, [] => Good s
  | s, e :: es => Good s ∧ ∀ s', sys.step s e = .ok s' → Always Good s' es

/-- The states the system comes to from one. -/
inductive Reachable (s₀ : S) : S → Prop
  | refl : Reachable s₀ s₀
  | step (h : Reachable s₀ s) (he : sys.enabled s e) (hs : sys.step s e = .ok s') :
    Reachable s₀ s'

/-- No step fails, and `Good` holds of every state. -/
def Safe (Good : S → Prop) : S → List E → Prop
  | s, [] => Good s
  | s, e :: es => Good s ∧ ∃ s', sys.step s e = .ok s' ∧ Safe Good s' es

end

section
variable {S E F : Type} {sys : System S E F} {Inv Good : S → Prop} {P : S → E → Prop}

theorem Meets.cons (hp : P s e) (hs : sys.step s e = .ok s') (h : Meets sys P s' es) :
    Meets sys P s (e :: es) := by
  refine ⟨hp, fun s'' h'' => ?_⟩
  rw [hs, Except.ok.injEq] at h''
  exact h'' ▸ h

theorem Always.tail (h : Always sys Good s (e :: es)) (hs : sys.step s e = .ok s') :
    Always sys Good s' es := h.2 s' hs

theorem Always.head (h : Always sys Good s es) : Good s := by
  cases es with
  | nil => exact h
  | cons e es => exact h.1

theorem Reachable.invariant (h : Reachable sys s₀ s) (h₀ : Inv s₀)
    (hstep : ∀ s e s', Inv s → sys.enabled s e → sys.step s e = .ok s' → Inv s') : Inv s := by
  induction h with
  | refl => exact h₀
  | step _ he hs ih => exact hstep _ _ _ ih he hs

/-- What is reachable after a first step is reachable. -/
theorem Reachable.after (h : Reachable sys s₁ s) (he : sys.enabled s₀ e)
    (hs : sys.step s₀ e = .ok s₁) : Reachable sys s₀ s := by
  induction h with
  | refl => exact .step .refl he hs
  | step _ he' hs' ih => exact .step ih he' hs'

theorem Safe.tail (h : Safe sys Good s (e :: es)) (hs : sys.step s e = .ok s') :
    Safe sys Good s' es := by
  obtain ⟨-, s'', h', hsafe⟩ := h
  rw [hs, Except.ok.injEq] at h'
  exact h' ▸ hsafe

theorem Safe.head (h : Safe sys Good s es) : Good s := by
  cases es with
  | nil => exact h
  | cons e es => exact h.1

/-- What every allowed step preserves holds along the run. -/
theorem always_of_step (hgood : ∀ s, Inv s → Good s)
    (hstep : ∀ s e s', Inv s → sys.enabled s e → P s e → sys.step s e = .ok s' → Inv s')
    (hs : Inv s) (hf : Feasible sys s es) (hp : Meets sys P s es) : Always sys Good s es := by
  induction es generalizing s with
  | nil => exact hgood s hs
  | cons e es ih =>
    refine ⟨hgood s hs, fun s' h => ?_⟩
    exact ih (hstep s e s' hs hf.1 hp.1 h) (hf.2 s' h) (hp.2 s' h)

/-- If the steps `P` allows succeed and keep an invariant, a run of them is
safe. `Q` is what is known of the events by themselves. -/
theorem safe_of_meets {Q : E → Prop} (hgood : ∀ s, Inv s → Good s)
    (hstep : ∀ s e, Inv s → Q e → sys.enabled s e → P s e → ∃ s', sys.step s e = .ok s' ∧ Inv s')
    (hs : Inv s) (hq : ∀ e ∈ es, Q e) (hf : Feasible sys s es) (hp : Meets sys P s es) :
    Safe sys Good s es := by
  induction es generalizing s with
  | nil => exact hgood s hs
  | cons e es ih =>
    obtain ⟨s', h, hinv⟩ := hstep s e hs (hq e (by simp)) hf.1 hp.1
    exact ⟨hgood s hs, s', h, ih hinv (fun e he => hq e (by simp [he])) (hf.2 s' h) (hp.2 s' h)⟩

/-- And if they are the only ones that succeed and keep `Good`, every safe run
is one of them. -/
theorem meets_of_safe {Q : E → Prop}
    (hstep : ∀ s e, Inv s → Q e → sys.enabled s e → P s e → ∃ s', sys.step s e = .ok s' ∧ Inv s')
    (hback : ∀ s e s', Inv s → Q e → sys.enabled s e → sys.step s e = .ok s' → Good s' → P s e)
    (hs : Inv s) (hq : ∀ e ∈ es, Q e) (hf : Feasible sys s es) (hsafe : Safe sys Good s es) :
    Meets sys P s es := by
  induction es generalizing s with
  | nil => trivial
  | cons e es ih =>
    obtain ⟨-, s', h, hsafe⟩ := hsafe
    have he := hq e (by simp)
    have hp := hback s e s' hs he hf.1 h hsafe.head
    obtain ⟨s'', h', hinv⟩ := hstep s e hs he hf.1 hp
    obtain rfl : s'' = s' := by simpa [h] using h'.symm
    exact .cons hp h (ih hinv (fun e he => hq e (by simp [he])) (hf.2 _ h) hsafe)

end

end Canvasback.Runs
