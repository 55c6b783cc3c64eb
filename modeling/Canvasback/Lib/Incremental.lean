import Mathlib.Data.List.Basic
import Mathlib.Order.MinMax

/-!
# Parsers that may be given too little

A parser takes symbols off the front of its input. It ends with a value, finds
the input wrong, or finds that there is not enough of it.

`Reads p k n` says what a parser's answer rests on: it consumes at least `k`
symbols and looks at most `n` past them. A parser that looks no further than
it consumes (`n = 0`) gives the same answer however much follows.
-/

namespace Canvasback.Incremental

/-- Why a parser has no value. -/
inductive Halt where
  | incomplete
  | malformed
  deriving DecidableEq, Repr

abbrev Parser (σ α : Type) := StateT (List σ) (Except Halt) α

section
variable {σ α β : Type}

def reject : Parser σ α := fun _ => .error .malformed

/-- The next symbol, left where it is. -/
def peek : Parser σ σ
  | [] => .error .incomplete
  | b :: bs => .ok (b, b :: bs)

def next : Parser σ σ
  | [] => .error .incomplete
  | b :: bs => .ok (b, bs)

/-- The symbols before the first at which `stop` holds; that one is left. -/
def scan (stop bad : σ → Bool) : Parser σ (List σ)
  | [] => .error .incomplete
  | b :: bs =>
    if stop b then .ok ([], b :: bs)
    else if bad b then .error .malformed
    else match scan stop bad bs with
      | .error e => .error e
      | .ok (token, bs) => .ok (b :: token, bs)

/-- What `p` answers is settled by what it consumes, at least `k` symbols, and
the `n` symbols after. -/
def Reads (p : Parser σ α) (k n : Nat) : Prop :=
  ∀ ⦃b a r⦄, p b = .ok (a, r) → ∃ c, b = c ++ r ∧ k ≤ c.length ∧
    ∀ e, e.take n = r.take n → p (c ++ e) = .ok (a, e)

-- ---------------------------------------------------------------------------
-- Taking a run apart
-- ---------------------------------------------------------------------------

theorem bind_ok {p : Parser σ α} {f : α → Parser σ β} (h : (p >>= f) b = .ok (y, r)) :
    ∃ x s, p b = .ok (x, s) ∧ f x s = .ok (y, r) := by
  simp only [bind, StateT.bind, Except.bind] at h
  cases hp : p b with
  | error e => simp [hp] at h
  | ok v =>
    obtain ⟨x, s⟩ := v
    exact ⟨x, s, rfl, by simpa [hp] using h⟩

theorem ok_bind {p : Parser σ α} {f : α → Parser σ β} (h : p b = .ok (x, s)) :
    (p >>= f) b = f x s := by
  simp [bind, StateT.bind, Except.bind, h]

@[simp] theorem pure_apply (a : α) (b : List σ) : (pure a : Parser σ α) b = .ok (a, b) := rfl

@[simp] theorem next_cons (b : σ) (bs : List σ) : next (b :: bs) = .ok (b, bs) := rfl

@[simp] theorem peek_cons (b : σ) (bs : List σ) : peek (b :: bs) = .ok (b, b :: bs) := rfl

theorem next_ok (h : next b = .ok (x, r)) : b = x :: r := by
  cases b with
  | nil => simp [next] at h
  | cons y ys =>
    simp only [next_cons, Except.ok.injEq, Prod.mk.injEq] at h
    obtain ⟨rfl, rfl⟩ := h
    rfl

theorem peek_ok (h : peek b = .ok (x, r)) : r = b ∧ ∃ bs, b = x :: bs := by
  cases b with
  | nil => simp [peek] at h
  | cons y ys =>
    simp only [peek_cons, Except.ok.injEq, Prod.mk.injEq] at h
    obtain ⟨rfl, rfl⟩ := h
    exact ⟨rfl, ys, rfl⟩

theorem scan_ok {stop bad : σ → Bool} (h : scan stop bad b = .ok (token, r)) :
    b = token ++ r ∧ (∀ x ∈ token, stop x = false ∧ bad x = false) ∧
      ∃ x rs, r = x :: rs ∧ stop x = true := by
  induction b generalizing token with
  | nil => simp [scan] at h
  | cons x xs ih =>
    simp only [scan] at h
    split at h
    · rename_i hx
      simp only [Except.ok.injEq, Prod.mk.injEq] at h
      obtain ⟨rfl, rfl⟩ := h
      exact ⟨rfl, by simp, x, xs, rfl, hx⟩
    · rename_i hx
      split at h
      · cases h
      · rename_i hb
        cases hs : scan stop bad xs with
        | error e => simp [hs] at h
        | ok v =>
          obtain ⟨t, r'⟩ := v
          simp only [hs, Except.ok.injEq, Prod.mk.injEq] at h
          obtain ⟨rfl, rfl⟩ := h
          obtain ⟨rfl, ht, hr⟩ := ih hs
          refine ⟨rfl, ?_, hr⟩
          intro y hy
          rcases List.mem_cons.mp hy with rfl | hy
          · exact ⟨by simpa using hx, by simpa using hb⟩
          · exact ht y hy

theorem scan_append {stop bad : σ → Bool}
    (h : ∀ x ∈ token, stop x = false ∧ bad x = false) (hx : stop x = true) :
    scan stop bad (token ++ x :: rs) = .ok (token, x :: rs) := by
  induction token with
  | nil => simp [scan, hx]
  | cons y ys ih =>
    have hy := h y (by simp)
    have hys := ih fun z hz => h z (by simp [hz])
    simp [scan, hy.1, hy.2, hys]

-- ---------------------------------------------------------------------------
-- What an answer rests on
-- ---------------------------------------------------------------------------

theorem Reads.mono {p : Parser σ α} (h : Reads p k n) (hk : k' ≤ k) (hn : n ≤ n') :
    Reads p k' n' := by
  intro b a r hp
  obtain ⟨c, hb, hc, he⟩ := h hp
  refine ⟨c, hb, hk.trans hc, fun e h => he e ?_⟩
  have := congrArg (List.take n) h
  simpa [List.take_take, Nat.min_eq_left hn] using this

theorem reads_pure (a : α) : Reads (pure a : Parser σ α) 0 0 := by
  intro b x r h
  simp only [pure_apply, Except.ok.injEq, Prod.mk.injEq] at h
  obtain ⟨rfl, rfl⟩ := h
  exact ⟨[], rfl, le_rfl, fun e _ => rfl⟩

theorem reads_reject : Reads (reject : Parser σ α) k n := by
  intro b a r h
  cases h

theorem reads_peek : Reads (peek : Parser σ σ) 0 1 := by
  intro b a r h
  obtain ⟨rfl, bs, rfl⟩ := peek_ok h
  refine ⟨[], rfl, le_rfl, fun e he => ?_⟩
  cases e with
  | nil => simp at he
  | cons x xs =>
    obtain rfl : x = a := by simpa using he
    rfl

theorem reads_next : Reads (next : Parser σ σ) 1 0 := by
  intro b a r h
  obtain rfl := next_ok h
  exact ⟨[a], rfl, le_rfl, fun e _ => rfl⟩

theorem reads_scan (stop bad : σ → Bool) : Reads (scan stop bad) 0 1 := by
  intro b a r h
  obtain ⟨rfl, ha, x, rs, rfl, hx⟩ := scan_ok h
  refine ⟨a, rfl, Nat.zero_le _, fun e he => ?_⟩
  cases e with
  | nil => simp at he
  | cons y ys =>
    obtain rfl : y = x := by simpa using he
    exact scan_append ha hx

/-- Of the look ahead of the first parser, what the second consumes is no look
ahead any more. -/
theorem Reads.bind {p : Parser σ α} {f : α → Parser σ β} (hp : Reads p k n)
    (hf : ∀ a, Reads (f a) k' n') : Reads (p >>= f) (k + k') (max (n - k') n') := by
  intro b y r h
  obtain ⟨x, s, hx, hy⟩ := bind_ok h
  obtain ⟨c, rfl, hc, hce⟩ := hp hx
  obtain ⟨c', rfl, hc', hce'⟩ := hf x hy
  refine ⟨c ++ c', by simp, by simp; omega, fun e he => ?_⟩
  have htake : ∀ m ≤ max (n - k') n', e.take m = r.take m := by
    intro m hm
    have := congrArg (List.take m) he
    simpa [List.take_take, Nat.min_eq_left hm] using this
  have hfirst : p (c ++ (c' ++ e)) = .ok (x, c' ++ e) := by
    apply hce
    rw [List.take_append, List.take_append, htake _ (by omega)]
  rw [List.append_assoc, ok_bind hfirst]
  exact hce' e (htake _ (le_max_right _ _))

theorem Reads.ite {p q : Parser σ α} (c : Prop) [Decidable c] (hp : Reads p k n)
    (hq : Reads q k n) : Reads (if c then p else q) k n := by
  split
  · exact hp
  · exact hq

/-- A parser that looks at nothing it does not consume. -/
theorem Reads.prompt {p : Parser σ α} (h : Reads p k 0) (hp : p b = .ok (a, r)) :
    ∃ c, b = c ++ r ∧ k ≤ c.length ∧ ∀ e, p (c ++ e) = .ok (a, e) := by
  obtain ⟨c, hb, hc, he⟩ := h hp
  exact ⟨c, hb, hc, fun e => he e (by simp)⟩

end

end Canvasback.Incremental
