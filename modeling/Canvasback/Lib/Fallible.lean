import Mathlib.Data.List.Basic
import Mathlib.Data.List.Induction

/-!
# What a fallible computation comes to

`ComesTo x Q E` says of a computation that what it returns is `Q` and what it
fails with is `E`. The rules here take sequences and loops apart.
-/

namespace Canvasback

section
variable {σ τ ε : Type}

inductive ComesTo (x : Except ε σ) (Q : σ → Prop) (E : ε → Prop) : Prop where
  | returns (hx : x = .ok s) (h : Q s)
  | fails (hx : x = .error e) (h : E e)

namespace ComesTo

variable {x : Except ε σ} {Q Q' : σ → Prop} {R : τ → Prop} {E E' : ε → Prop}
  {f : σ → Except ε τ} {s s' : σ}

theorem ok (h : Q s) : ComesTo (.ok s : Except ε σ) Q E := .returns rfl h

theorem error {e : ε} (h : E e) : ComesTo (.error e : Except ε σ) Q E := .fails rfl h

theorem of_ok (h : ComesTo x Q E) (hx : x = .ok s) : Q s := by
  cases h with
  | returns hx' h => exact Except.ok.inj (hx.symm.trans hx') ▸ h
  | fails hx' h => cases hx.symm.trans hx'

theorem of_error {e : ε} (h : ComesTo x Q E) (hx : x = .error e) : E e := by
  cases h with
  | returns hx' h => cases hx.symm.trans hx'
  | fails hx' h => exact Except.error.inj (hx.symm.trans hx') ▸ h

theorem mono (h : ComesTo x Q E) (hQ : ∀ s, Q s → Q' s) (hE : ∀ e, E e → E' e) :
    ComesTo x Q' E' := by
  cases h with
  | returns hx h => exact .returns hx (hQ _ h)
  | fails hx h => exact .fails hx (hE _ h)

theorem and {R : σ → Prop} (h : ComesTo x Q E) (hR : ∀ s, x = .ok s → R s) :
    ComesTo x (fun s => R s ∧ Q s) E := by
  cases h with
  | returns hx h => exact .returns hx ⟨hR _ hx, h⟩
  | fails hx h => exact .fails hx h

theorem bind (h : ComesTo x Q E) (hf : ∀ s, Q s → ComesTo (f s) R E) : ComesTo (x >>= f) R E := by
  cases h with
  | returns hx h =>
    subst hx
    exact hf _ h
  | fails hx h =>
    subst hx
    exact .error h

/-- A computation that fails with nothing returns. -/
theorem exists_ok (h : ComesTo x Q fun _ => False) : ∃ s, x = .ok s ∧ Q s := by
  cases h with
  | returns hx h => exact ⟨_, hx, h⟩
  | fails _ h => exact h.elim

theorem map_ok {g : σ → τ} (h : ComesTo x Q E) (hg : ∀ s, Q s → R (g s)) :
    ComesTo (x >>= fun s => .ok (g s)) R E := h.bind fun s hs => .ok (hg s hs)

-- ---------------------------------------------------------------------------
-- Loops
-- ---------------------------------------------------------------------------

variable {P : Nat → σ → Prop} {v : σ → Nat → Except ε σ}

/-- A loop over the numbers below `n` that steps over some of them. What the
loop does at `i` is done where the loop up to `i` has come to. -/
theorem foldlM_filter {p : Nat → Bool} {n : Nat}
    (hskip : ∀ i < n, p i = false → ∀ s', P i s' → P (i + 1) s')
    (hvisit : ∀ i < n, p i = true → ∀ s', ((List.range i).filter p).foldlM v s = .ok s' →
      P i s' → ComesTo (v s' i) (P (i + 1)) E)
    (h₀ : P 0 s) : ComesTo (((List.range n).filter p).foldlM v s) (P n) E := by
  induction n with
  | zero => exact .ok h₀
  | succ n ih =>
    have hfirst := ih (fun i hi => hskip i (by omega)) (fun i hi => hvisit i (by omega))
    rw [List.range_succ, List.filter_append, List.foldlM_append]
    refine (hfirst.and fun s' hs' => hs').bind fun s' ⟨hrun, hs'⟩ => ?_
    cases hp : p n with
    | false =>
      simp only [List.filter_cons, hp, Bool.false_eq_true, if_false, List.filter_nil]
      exact .ok (hskip n (by omega) hp s' hs')
    | true =>
      simp only [List.filter_cons, hp, if_true, List.filter_nil, List.foldlM_cons]
      exact (hvisit n (by omega) hp s' hrun hs').bind fun _ h => .ok h

/-- A loop that does something at one number only. -/
theorem foldlM_range_single {k n : Nat} (hk : k < n) (hbelow : ∀ i < k, v s i = .ok s)
    (habove : ∀ s', v s k = .ok s' → ∀ i, k < i → v s' i = .ok s') :
    (List.range n).foldlM v s = v s k := by
  have hfirst (m : Nat) (hm : m ≤ k) : (List.range m).foldlM v s = .ok s := by
    induction m with
    | zero => rfl
    | succ m ih =>
      rw [List.range_succ, List.foldlM_append, ih (by omega)]
      show (List.foldlM v s [m]) = _
      rw [List.foldlM_cons, hbelow m (by omega)]
      rfl
  obtain ⟨j, rfl⟩ : ∃ j, n = k + 1 + j := ⟨n - (k + 1), by omega⟩
  clear hk
  induction j with
  | zero =>
    rw [Nat.add_zero, List.range_succ, List.foldlM_append, hfirst k (Nat.le_refl k)]
    show (List.foldlM v s [k]) = _
    rw [List.foldlM_cons]
    cases v s k <;> rfl
  | succ j ih =>
    rw [← Nat.add_assoc, List.range_succ, List.foldlM_append, ih]
    cases hstep : v s k with
    | error e => rfl
    | ok s' =>
      show (List.foldlM v s' [k + 1 + j]) = _
      rw [List.foldlM_cons, habove s' hstep _ (by omega)]
      rfl

theorem foldlM_range {n : Nat}
    (hvisit : ∀ i < n, ∀ s', (List.range i).foldlM v s = .ok s' → P i s' →
      ComesTo (v s' i) (P (i + 1)) E)
    (h₀ : P 0 s) : ComesTo ((List.range n).foldlM v s) (P n) E := by
  have h := foldlM_filter (p := fun _ => true) (E := E) (v := v) (s := s) (n := n)
    (fun _ _ hi => by cases hi)
    (fun i hi _ s' hrun => hvisit i hi s' (by rwa [List.filter_true] at hrun)) h₀
  rwa [List.filter_true] at h

end ComesTo

end

end Canvasback
