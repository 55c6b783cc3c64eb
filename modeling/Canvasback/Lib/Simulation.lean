import Canvasback.Lib.Fallible

/-!
# One computation for another

`Matches R F x y` says that a fallible computation does what another does: both
return, with results that stand in `R`, or both fail, as `F` says.
-/

namespace Canvasback

section
variable {σ τ σ' τ' ε φ : Type}

inductive Matches (R : σ → τ → Prop) (F : ε → φ → Prop) (x : Except ε σ) (y : Except φ τ) :
    Prop where
  | returns (hx : x = .ok s) (hy : y = .ok t) (h : R s t)
  | fails (hx : x = .error e) (hy : y = .error f) (h : F e f)

namespace Matches

variable {R : σ → τ → Prop} {R' : σ' → τ' → Prop} {F : ε → φ → Prop} {x : Except ε σ}
  {y : Except φ τ} {f : σ → Except ε σ'} {g : τ → Except φ τ'} {s : σ} {t : τ}

theorem ok (h : R s t) : Matches R F (.ok s) (.ok t) := .returns rfl rfl h

theorem error {e : ε} {e' : φ} (h : F e e') : Matches R F (.error e) (.error e') :=
  .fails rfl rfl h

theorem bind (h : Matches R F x y) (hf : ∀ s t, R s t → Matches R' F (f s) (g t)) :
    Matches R' F (x >>= f) (y >>= g) := by
  cases h with
  | returns hx hy h =>
    subst hx hy
    exact hf _ _ h
  | fails hx hy h =>
    subst hx hy
    exact .error h

theorem map_ok {g : σ → σ'} {Q : σ' → τ → Prop} (h : Matches R F x y)
    (hg : ∀ s t, R s t → Q (g s) t) : Matches Q F (x >>= fun s => .ok (g s)) y := by
  cases h with
  | returns hx hy h =>
    subst hx
    exact .returns rfl hy (hg _ _ h)
  | fails hx hy h =>
    subst hx
    exact .fails rfl hy h

/-- What the first comes to by what the second does. -/
theorem comesTo (h : Matches R F x y) :
    ComesTo x (fun s => ∃ t, y = .ok t ∧ R s t) fun e => ∃ e', y = .error e' ∧ F e e' := by
  cases h with
  | returns hx hy h => exact .returns hx ⟨_, hy, h⟩
  | fails hx hy h => exact .fails hx ⟨_, hy, h⟩

/-- The second returns where the first does. -/
theorem returned (h : Matches R F x y) (hy : y = .ok t) : ∃ s, x = .ok s ∧ R s t := by
  cases h with
  | returns hx hy' h => exact ⟨_, hx, Except.ok.inj (hy'.symm.trans hy) ▸ h⟩
  | fails hx hy' h => cases hy'.symm.trans hy

end Matches

end

end Canvasback
