import Canvasback.Lib.Incremental

/-!
# Parsers of a grammar

A grammar says which texts a value has. `Parses p G`: what `p` takes off the
front of its input is a text of its value, and whatever begins with one it
takes. Each way to build a parser has a rule; a look ahead is accounted for
where the symbol looked at is taken.

`Steady p`: an answer stays as it is when more input comes.
-/

namespace Canvasback.Incremental

section
variable {σ α β : Type} {b e r : List σ} {stop bad : σ → Bool}

def Parses (p : Parser σ α) (G : α → List σ → Prop) : Prop :=
  ∀ b a r, p b = .ok (a, r) ↔ ∃ c, b = c ++ r ∧ G a c

-- ---------------------------------------------------------------------------
-- Rules
-- ---------------------------------------------------------------------------

theorem Parses.congr {p : Parser σ α} {G H : α → List σ → Prop} (h : Parses p G)
    (hG : ∀ a c, G a c ↔ H a c) : Parses p H := by
  intro b a r
  rw [h b a r]
  exact exists_congr fun c => and_congr_right fun _ => hG a c

theorem parses_pure (a : α) : Parses (pure a : Parser σ α) fun x c => x = a ∧ c = [] := by
  intro b x r
  constructor
  · rintro ⟨⟩
    exact ⟨[], rfl, rfl, rfl⟩
  · rintro ⟨c, rfl, rfl, rfl⟩
    rfl

theorem parses_reject : Parses (reject : Parser σ α) fun _ _ => False := by
  intro b a r
  constructor
  · rintro ⟨⟩
  · rintro ⟨c, -, h⟩
    exact h.elim

theorem parses_next : Parses (next : Parser σ σ) fun x c => c = [x] := by
  intro b x r
  constructor
  · intro h
    exact ⟨[x], next_ok h, rfl⟩
  · rintro ⟨c, rfl, rfl⟩
    rfl

theorem Parses.bind {p : Parser σ α} {f : α → Parser σ β} {G : α → List σ → Prop}
    {H : α → β → List σ → Prop} (hp : Parses p G) (hf : ∀ a, Parses (f a) (H a)) :
    Parses (p >>= f) fun y c => ∃ a c₁ c₂, c = c₁ ++ c₂ ∧ G a c₁ ∧ H a y c₂ := by
  intro b y r
  constructor
  · intro h
    obtain ⟨a, s, ha, hy⟩ := bind_ok h
    obtain ⟨c₁, rfl, hG⟩ := (hp _ _ _).mp ha
    obtain ⟨c₂, rfl, hH⟩ := (hf a _ _ _).mp hy
    exact ⟨c₁ ++ c₂, (List.append_assoc ..).symm, a, c₁, c₂, rfl, hG, hH⟩
  · rintro ⟨c, rfl, a, c₁, c₂, rfl, hG, hH⟩
    rw [List.append_assoc, ok_bind ((hp _ _ _).mpr ⟨c₁, rfl, hG⟩)]
    exact (hf a _ _ _).mpr ⟨c₂, rfl, hH⟩

theorem Parses.ite {p q : Parser σ α} {G H : α → List σ → Prop} (c : Prop) [Decidable c]
    (hp : c → Parses p G) (hq : ¬ c → Parses q H) :
    Parses (if c then p else q) fun a t => if c then G a t else H a t := by
  split
  · rename_i hc
    exact hp hc
  · rename_i hc
    exact hq hc

/-- The symbol looked at is the first one of what is taken after. -/
theorem Parses.peek {f : σ → Parser σ β} {H : σ → β → List σ → Prop}
    (hf : ∀ x, Parses (f x) (H x)) (hne : ∀ x y, ¬ H x y []) :
    Parses (Incremental.peek >>= f) fun y c => ∃ x t, c = x :: t ∧ H x y c := by
  intro b y r
  constructor
  · intro h
    obtain ⟨x, s, hx, hy⟩ := bind_ok h
    obtain ⟨rfl, bs, rfl⟩ := peek_ok hx
    obtain ⟨c, hc, hH⟩ := (hf x _ _ _).mp hy
    cases c with
    | nil => exact absurd hH (hne x y)
    | cons z t =>
      obtain rfl : x = z := (List.cons.inj hc).1
      exact ⟨x :: t, hc, x, t, rfl, hH⟩
  · rintro ⟨c, rfl, x, t, rfl, hH⟩
    exact (hf x _ _ _).mpr ⟨x :: t, rfl, hH⟩

/-- So is the symbol a scan stops at. -/
theorem Parses.scan (stop bad : σ → Bool) {f : List σ → Parser σ β}
    {H : List σ → β → List σ → Prop} (hf : ∀ token, Parses (f token) (H token))
    (hne : ∀ token y, ¬ H token y []) :
    Parses (Incremental.scan stop bad >>= f) fun y c => ∃ token x t, c = token ++ x :: t ∧
      (∀ z ∈ token, stop z = false ∧ bad z = false) ∧ stop x = true ∧ H token y (x :: t) := by
  intro b y r
  constructor
  · intro h
    obtain ⟨token, s, hs, hy⟩ := bind_ok h
    obtain ⟨rfl, htoken, x, rs, rfl, hx⟩ := scan_ok hs
    obtain ⟨c, hc, hH⟩ := (hf token _ _ _).mp hy
    cases c with
    | nil => exact absurd hH (hne token y)
    | cons z t =>
      obtain rfl : x = z := (List.cons.inj hc).1
      exact ⟨token ++ x :: t, by rw [hc, List.append_assoc], token, x, t, rfl, htoken, hx, hH⟩
  · rintro ⟨c, rfl, token, x, t, rfl, htoken, hx, hH⟩
    have hscan : Incremental.scan stop bad (token ++ x :: (t ++ r)) = .ok (token, x :: (t ++ r)) :=
      scan_append htoken hx
    rw [List.append_assoc, List.cons_append, ok_bind hscan]
    exact (hf token _ _ _).mpr ⟨x :: t, rfl, hH⟩

-- ---------------------------------------------------------------------------
-- Texts
-- ---------------------------------------------------------------------------

theorem Parses.text {p : Parser σ α} {G : α → List σ → Prop} (h : Parses p G) (hG : G a c)
    (r : List σ) : p (c ++ r) = .ok (a, r) := (h _ _ _).mpr ⟨c, rfl, hG⟩

-- ---------------------------------------------------------------------------
-- More input
-- ---------------------------------------------------------------------------

structure Steady (p : Parser σ α) : Prop where
  ok : ∀ {b a r}, p b = .ok (a, r) → ∀ e, p (b ++ e) = .ok (a, r ++ e)
  malformed : ∀ {b}, p b = .error .malformed → ∀ e, p (b ++ e) = .error .malformed

theorem bind_error {p : Parser σ α} {f : α → Parser σ β} {halt : Halt}
    (h : (p >>= f) b = .error halt) :
    p b = .error halt ∨ ∃ x s, p b = .ok (x, s) ∧ f x s = .error halt := by
  simp only [Bind.bind, StateT.bind, Except.bind] at h
  cases hp : p b with
  | error stopped =>
    rw [hp] at h
    exact .inl (congrArg Except.error (Except.error.inj h))
  | ok v =>
    rw [hp] at h
    exact .inr ⟨v.1, v.2, rfl, h⟩

theorem error_bind {p : Parser σ α} {f : α → Parser σ β} {halt : Halt} (h : p b = .error halt) :
    (p >>= f) b = .error halt := by
  simp only [Bind.bind, StateT.bind, h]
  rfl

theorem steady_pure (a : α) : Steady (pure a : Parser σ α) := by
  refine ⟨fun h e => ?_, fun h => nomatch h⟩
  cases h
  rfl

theorem steady_reject : Steady (reject : Parser σ α) :=
  ⟨fun h => (nomatch h), fun _ _ => rfl⟩

theorem steady_peek : Steady (peek : Parser σ σ) := by
  refine ⟨fun {b _ _} h e => ?_, fun {b} h => ?_⟩
  · obtain ⟨rfl, bs, rfl⟩ := peek_ok h
    rfl
  · cases b <;> cases h

theorem steady_next : Steady (next : Parser σ σ) := by
  refine ⟨fun {b _ _} h e => ?_, fun {b} h => ?_⟩
  · obtain rfl := next_ok h
    rfl
  · cases b <;> cases h

theorem steady_scan (stop bad : σ → Bool) : Steady (scan stop bad) := by
  refine ⟨fun h e => ?_, fun {b} h e => ?_⟩
  · obtain ⟨rfl, ht, x, rs, rfl, hx⟩ := scan_ok h
    rw [List.append_assoc, List.cons_append]
    exact scan_append ht hx
  · induction b with
    | nil => cases h
    | cons x b ih =>
      rw [List.cons_append]
      unfold scan at h ⊢
      split
      · rename_i hx
        rw [if_pos hx] at h
        cases h
      · rename_i hx
        rw [if_neg hx] at h
        split
        · rfl
        · rename_i hbad
          rw [if_neg hbad] at h
          cases hs : scan stop bad b with
          | error halt =>
            rw [hs] at h
            rw [ih (hs.trans h)]
          | ok v =>
            rw [hs] at h
            cases h

theorem Steady.bind {p : Parser σ α} {f : α → Parser σ β} (hp : Steady p)
    (hf : ∀ a, Steady (f a)) : Steady (p >>= f) := by
  refine ⟨fun h e => ?_, fun h e => ?_⟩
  · obtain ⟨x, s, hx, hy⟩ := bind_ok h
    rw [ok_bind (hp.ok hx e)]
    exact (hf x).ok hy e
  · rcases bind_error h with h | ⟨x, s, hx, hy⟩
    · exact error_bind (hp.malformed h e)
    · rw [ok_bind (hp.ok hx e)]
      exact (hf x).malformed hy e

theorem Steady.ite {p q : Parser σ α} (c : Prop) [Decidable c] (hp : Steady p) (hq : Steady q) :
    Steady (if c then p else q) := by
  split
  · exact hp
  · exact hq

/-- A parser that has not been given a whole text of a value waits for it. -/
theorem Steady.waits {p : Parser σ α} {G : α → List σ → Prop} (hs : Steady p) (hG : Parses p G)
    (h : G a (c ++ x :: t)) : p c = .error .incomplete := by
  have hwhole : p (c ++ x :: t) = .ok (a, []) := by simpa using hG.text h []
  cases hc : p c with
  | error halt =>
    cases halt with
    | incomplete => rfl
    | malformed => rw [hs.malformed hc] at hwhole; cases hwhole
  | ok v =>
    rw [hs.ok hc] at hwhole
    simp at hwhole

end

end Canvasback.Incremental
