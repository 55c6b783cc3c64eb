import Canvasback.FmtRes
import Canvasback.Lib.Runs

/-!
# The row loop turn by turn

On any bytes. What a turn of `while (geom_pos < reslen)` does to the cursor and
which calls of `short_stream` it makes depend on the bytes at the cursor alone
(`Turn`); what the calls do to the stream does not depend on where they come
from (`streamCalls`). `rowStep_ok` takes a turn apart into the two.
-/

namespace Canvasback

open Memory Runs

/-- A call of `short_stream`: the arguments taken from the row. -/
structure Call where
  coordbuf : Int
  npts : Int
  geomT : Nat
  osmtype : Nat
  deriving DecidableEq, Repr

section
variable (mem : Mem) (stylenum : Nat)

/-- The calls of `while (linear_rings)`, and the cursor behind it. -/
def ringTurn : (linearRings : Nat) → Int → Except Fault (List Call × Int)
  | 0, g => .ok ([], g)
  | linearRings + 1, g => do
    let n ← u32 mem g
    let (calls, g') ← ringTurn linearRings (i32 (g + (i32 n * 16 + 4)))
    .ok (⟨i32 (g + 4), i32 n, 3, stylenum⟩ :: calls, g')

/-- A turn at a cursor: its calls and the cursor behind it, by the type word
the cursor is on. -/
inductive Turn (g : Int) : List Call → Int → Prop
  | point (ht : u32 mem g = .ok 1) : Turn g [⟨i32 (g + 4), 1, 1, 10⟩] (i32 (g + 17))
  | line {n : Nat} (ht : u32 mem g = .ok 2) (hn : u32 mem (i32 (g + 4)) = .ok n) :
    Turn g [⟨i32 (g + 8), i32 n, 2, stylenum⟩] (i32 (g + (i32 n * 16 + 9)))
  | polygon {n : Nat} {calls : List Call} {g' : Int} (ht : u32 mem g = .ok 3)
    (hn : u32 mem (i32 (g + 4)) = .ok n)
    (hrings : ringTurn mem stylenum n (i32 (g + 8)) = .ok (calls, g')) :
    Turn g calls (i32 (g' + 1))
  | other {t : Nat} (ht : u32 mem g = .ok t) (hne : t ≠ 1 ∧ t ≠ 2 ∧ t ≠ 3) :
    Turn g [] (i32 (g + 9))

end

section
variable (scale : Scale) (tile : Tms) (mem : Mem)

def streamCalls : List Call → Stream → Except Fault Stream
  | [], s => .ok s
  | c :: calls, s => do
    let strm ← shortStream scale tile mem c.coordbuf s.strm c.npts s.ptCount s.ngeoms c.geomT
      c.osmtype
    streamCalls calls { ptCount := i32 (s.ptCount + c.npts), ngeoms := i32 (s.ngeoms + 1), strm }

/-- `while (geom_pos < reslen)` as a system: it takes a turn as long as the
cursor is in front of the row's end. -/
def rowWalk (reslen : Int) (stylenum : Nat) : System Walk Unit Fault where
  enabled w _ := w.geomPos < reslen
  step w _ := rowStep scale tile mem stylenum w

end

section
variable {scale : Scale} {tile : Tms} {mem : Mem} {reslen : Int} {st : Nat} {w w' : Walk}

theorem walk_eq {s : Stream} {g : Int} : ({ s with geomPos := g } : Walk) = w ↔
    s = w.toStream ∧ g = w.geomPos := by
  cases w
  simp

theorem streamCalls_cons {b n : Int} {t o : Nat} {calls : List Call} {s s' : Stream} :
    streamCalls scale tile mem (⟨b, n, t, o⟩ :: calls) s = .ok s' ↔
      ∃ strm, shortStream scale tile mem b s.strm n s.ptCount s.ngeoms t o = .ok strm ∧
        streamCalls scale tile mem calls
          { ptCount := i32 (s.ptCount + n), ngeoms := i32 (s.ngeoms + 1), strm } = .ok s' := by
  rw [streamCalls, bind_eq_ok]

theorem ringTurn_succ {calls : List Call} {n : Nat} {g g' : Int} :
    ringTurn mem st (n + 1) g = .ok (calls, g') ↔
      ∃ k rest, u32 mem g = .ok k ∧
        ringTurn mem st n (i32 (g + (i32 k * 16 + 4))) = .ok (rest, g') ∧
        calls = ⟨i32 (g + 4), i32 k, 3, st⟩ :: rest := by
  simp only [ringTurn, bind_eq_ok, Except.ok.injEq, Prod.mk.injEq, Prod.exists]
  constructor
  · rintro ⟨k, hk, rest, g₁, hrest, rfl, rfl⟩
    exact ⟨k, rest, hk, hrest, rfl⟩
  · rintro ⟨k, rest, hk, hrest, rfl⟩
    exact ⟨k, hk, rest, g', hrest, rfl, rfl⟩

theorem ringLoop_ok (n : Nat) (w : Walk) : ringLoop scale tile mem st n w = .ok w' ↔
    ∃ calls, ringTurn mem st n w.geomPos = .ok (calls, w'.geomPos) ∧
      streamCalls scale tile mem calls w.toStream = .ok w'.toStream := by
  induction n generalizing w with
  | zero =>
    simp only [ringLoop, ringTurn, Except.ok.injEq, Prod.mk.injEq]
    constructor
    · rintro rfl
      exact ⟨[], ⟨rfl, rfl⟩, rfl⟩
    · rintro ⟨calls, ⟨rfl, hg⟩, hs⟩
      exact walk_eq.mpr ⟨Except.ok.inj hs, hg⟩
  | succ n ih =>
    simp only [ringLoop, bind_eq_ok, ih, ringTurn_succ]
    constructor
    · rintro ⟨k, hk, strm, hstrm, calls, hturn, hs⟩
      refine ⟨⟨i32 (w.geomPos + 4), i32 k, 3, st⟩ :: calls, ⟨k, calls, hk, hturn, rfl⟩, ?_⟩
      rw [streamCalls_cons]
      exact ⟨strm, hstrm, hs⟩
    · rintro ⟨_, ⟨k, calls, hk, hturn, rfl⟩, hs⟩
      rw [streamCalls_cons] at hs
      obtain ⟨strm, hstrm, hs⟩ := hs
      exact ⟨k, hk, strm, hstrm, calls, hturn, hs⟩

/-- **One turn**: the cursor and the calls come from the bytes, the stream from
the calls. -/
theorem rowStep_ok : rowStep scale tile mem st w = .ok w' ↔
    ∃ calls, Turn mem st w.geomPos calls w'.geomPos ∧
      streamCalls scale tile mem calls w.toStream = .ok w'.toStream := by
  constructor
  · intro h
    obtain ⟨t, ht, h⟩ := bind_eq_ok.mp h
    split_ifs at h with h1 h2 h3
    · obtain ⟨strm, hstrm, h⟩ := bind_eq_ok.mp h
      obtain ⟨hs, hg⟩ := walk_eq.mp (Except.ok.inj h)
      subst h1
      refine ⟨[⟨i32 (w.geomPos + 4), 1, 1, 10⟩], ?_, ?_⟩
      · rw [← hg]
        exact .point ht
      · rw [streamCalls_cons, ← hs]
        exact ⟨strm, hstrm, rfl⟩
    · obtain ⟨n, hn, h⟩ := bind_eq_ok.mp h
      obtain ⟨strm, hstrm, h⟩ := bind_eq_ok.mp h
      obtain ⟨hs, hg⟩ := walk_eq.mp (Except.ok.inj h)
      subst h2
      refine ⟨[⟨i32 (w.geomPos + 8), i32 n, 2, st⟩], ?_, ?_⟩
      · rw [← hg]
        exact .line ht hn
      · rw [streamCalls_cons, ← hs]
        exact ⟨strm, hstrm, rfl⟩
    · obtain ⟨n, hn, h⟩ := bind_eq_ok.mp h
      obtain ⟨w₁, hloop, h⟩ := bind_eq_ok.mp h
      obtain ⟨hs, hg⟩ := walk_eq.mp (Except.ok.inj h)
      obtain ⟨calls, hrings, hcalls⟩ := (ringLoop_ok n _).mp hloop
      subst h3
      refine ⟨calls, ?_, ?_⟩
      · rw [← hg]
        exact .polygon ht hn hrings
      · rw [← hs]
        exact hcalls
    · obtain ⟨hs, hg⟩ := walk_eq.mp (Except.ok.inj h)
      refine ⟨[], ?_, ?_⟩
      · rw [← hg]
        exact .other ht ⟨h1, h2, h3⟩
      · rw [← hs]
        rfl
  · rintro ⟨calls, hturn, hs⟩
    refine bind_eq_ok.mpr ?_
    generalize hg : w'.geomPos = g' at hturn
    cases hturn with
    | point ht =>
      rw [streamCalls_cons] at hs
      obtain ⟨strm, hstrm, hs⟩ := hs
      refine ⟨1, ht, ?_⟩
      rw [if_pos rfl, bind_eq_ok]
      refine ⟨strm, hstrm, ?_⟩
      rw [Except.ok.injEq]
      exact walk_eq.mpr ⟨Except.ok.inj hs, hg.symm⟩
    | line ht hn =>
      rw [streamCalls_cons] at hs
      obtain ⟨strm, hstrm, hs⟩ := hs
      refine ⟨2, ht, ?_⟩
      rw [if_neg (by decide), if_pos rfl, bind_eq_ok]
      refine ⟨_, hn, ?_⟩
      rw [bind_eq_ok]
      refine ⟨strm, hstrm, ?_⟩
      rw [Except.ok.injEq]
      exact walk_eq.mpr ⟨Except.ok.inj hs, hg.symm⟩
    | @polygon n _ g₁ ht hn hrings =>
      refine ⟨3, ht, ?_⟩
      rw [if_neg (by decide), if_neg (by decide), if_pos rfl, bind_eq_ok]
      refine ⟨n, hn, ?_⟩
      rw [bind_eq_ok]
      refine ⟨{ w'.toStream with geomPos := g₁ }, (ringLoop_ok n _).mpr ⟨calls, hrings, hs⟩, ?_⟩
      rw [Except.ok.injEq]
      exact walk_eq.mpr ⟨rfl, hg.symm⟩
    | other ht hne =>
      refine ⟨_, ht, ?_⟩
      rw [if_neg hne.1, if_neg hne.2.1, if_neg hne.2.2]
      rw [Except.ok.injEq]
      exact walk_eq.mpr ⟨Except.ok.inj hs, hg.symm⟩

end

end Canvasback
