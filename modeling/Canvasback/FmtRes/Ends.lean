import Canvasback.FmtRes.Rows
import Canvasback.FmtRes.Turns

/-!
# Does the row loop end

On any bytes. Every turn moves the cursor by an odd step, wrapped to 32 bits;
it moves it forward exactly if cursor and step, the step taken as an unsigned
number, stay below 2^31. A walk of such turns ends. Counts are taken from the
row unchecked, so the other kind of turn is there too, and some rows keep the
loop going for ever (`cycleRow`).
-/

namespace Canvasback

open Memory Runs

/-- What a call adds to the nine bytes every turn steps over. -/
def Call.step (c : Call) : Int :=
  if c.geomT = 1 then 8 else if c.geomT = 2 then 16 * c.npts else 16 * c.npts + 4

def turnStep (calls : List Call) : Int := 9 + (calls.map Call.step).sum

section
variable (scale : Scale) (tile : Tms) (mem : Mem) (reslen : Int) (st : Nat) (w₀ : Walk)

/-- Every turn of the loop moves the cursor forward. -/
def Increases : Prop :=
  ∀ w w', Reachable (rowWalk scale tile mem reslen st) w₀ w → w.geomPos < reslen →
    rowStep scale tile mem st w = .ok w' → w.geomPos < w'.geomPos

def Ends : Prop :=
  ∃ least, ∀ fuel, least ≤ fuel → rowLoop scale tile mem reslen st fuel w₀ ≠ .error .outOfFuel

/-- Cursor and step stay below 2^31 in every turn, the step as it is counted
from the row, modulo 2^32. -/
def StepsFit : Prop :=
  ∀ w w' calls, Reachable (rowWalk scale tile mem reslen st) w₀ w → w.geomPos < reslen →
    rowStep scale tile mem st w = .ok w' → Turn mem st w.geomPos calls w'.geomPos →
    w.geomPos + turnStep calls % 2 ^ 32 < 2 ^ 31

end

-- ---------------------------------------------------------------------------
-- Steps
-- ---------------------------------------------------------------------------

section
variable {scale : Scale} {tile : Tms} {mem : Mem} {reslen : Int} {st : Nat} {w w' w₀ : Walk}
  {calls : List Call} {g g' : Int}

/-- A wrapped sum is the larger one if it did not have to wrap. -/
theorem lt_i32_iff (hg : -2 ^ 31 ≤ g ∧ g < 2 ^ 31) (hs : s % 2 = 1) :
    g < i32 (g + s) ↔ g + s % 2 ^ 32 < 2 ^ 31 := by
  simp only [i32, Int.bmod]
  omega

theorem step_point (b n : Int) (o : Nat) : Call.step ⟨b, n, 1, o⟩ = 8 := rfl

theorem step_line (b n : Int) (o : Nat) : Call.step ⟨b, n, 2, o⟩ = 16 * n := rfl

theorem step_ring (b n : Int) (o : Nat) : Call.step ⟨b, n, 3, o⟩ = 16 * n + 4 := rfl

theorem sum_step_even (calls : List Call) : (calls.map Call.step).sum % 2 = 0 := by
  induction calls with
  | nil => simp
  | cons c calls ih =>
    have hc : c.step % 2 = 0 := by
      unfold Call.step
      split
      · decide
      · split <;> omega
    rw [List.map_cons, List.sum_cons]
    omega

theorem ringTurn_cursor {n : Nat} (h : ringTurn mem st n g = .ok (calls, g')) :
    (g' - (g + (calls.map Call.step).sum)) % 2 ^ 32 = 0 := by
  induction n generalizing g calls with
  | zero =>
    simp only [ringTurn, Except.ok.injEq, Prod.mk.injEq] at h
    obtain ⟨rfl, rfl⟩ := h
    simp
  | succ n ih =>
    obtain ⟨k, rest, -, hrest, rfl⟩ := ringTurn_succ.mp h
    have hcong := ih hrest
    have hwrap := i32_sub_mod (g + (i32 k * 16 + 4))
    rw [List.map_cons, List.sum_cons, step_ring]
    omega

/-- A turn moves the cursor by its step. -/
theorem Turn.cursor (h : Turn mem st g calls g') : g' = i32 (g + turnStep calls) := by
  cases h with
  | point => rw [turnStep, List.map_singleton, List.sum_singleton, step_point]; norm_num
  | @line n ht hn =>
    rw [turnStep, List.map_singleton, List.sum_singleton, step_line, add_comm 9, mul_comm 16]
  | polygon ht hn hrings =>
    have hcong := ringTurn_cursor hrings
    have hwrap := i32_sub_mod (g + 8)
    refine i32_congr ?_
    unfold turnStep
    omega
  | other => rw [turnStep, List.map_nil, List.sum_nil, add_zero]

/-- **One turn goes forward** exactly if its step fits. -/
theorem Turn.lt_iff (h : Turn mem st g calls g') (hg : -2 ^ 31 ≤ g ∧ g < 2 ^ 31) :
    g < g' ↔ g + turnStep calls % 2 ^ 32 < 2 ^ 31 := by
  have hodd : turnStep calls % 2 = 1 := by
    have := sum_step_even calls
    unfold turnStep
    omega
  rw [h.cursor]
  exact lt_i32_iff hg hodd

theorem Turn.range (h : Turn mem st g calls g') : -2 ^ 31 ≤ g' ∧ g' < 2 ^ 31 := by
  rw [h.cursor]
  exact i32_range _

/-- The cursor is an `int` all along. -/
theorem reachable_range (h : Reachable (rowWalk scale tile mem reslen st) w₀ w)
    (h₀ : -2 ^ 31 ≤ w₀.geomPos ∧ w₀.geomPos < 2 ^ 31) :
    -2 ^ 31 ≤ w.geomPos ∧ w.geomPos < 2 ^ 31 := by
  cases h with
  | refl => exact h₀
  | step _ _ hs =>
    obtain ⟨calls, hturn, -⟩ := rowStep_ok.mp hs
    exact hturn.range

-- ---------------------------------------------------------------------------
-- The loop
-- ---------------------------------------------------------------------------

theorem straight_points (coordbuf idx ngeoms : Int) (left : Nat) (i : Int) (strm : List UInt8) :
    Straight (shortStream.points scale tile mem coordbuf idx ngeoms left i strm) := by
  induction left generalizing i strm with
  | zero => exact straight_ok _
  | succ left ih =>
    exact Straight.bind (straight_f64 ..) fun _ => Straight.bind (straight_put ..) fun _ =>
      Straight.bind (straight_f64 ..) fun _ => Straight.bind (straight_put ..) fun _ => ih _ _

theorem straight_shortStream (coordbuf : Int) (strm : List UInt8) (npts idx ngeoms : Int)
    (geomT osmtype : Nat) :
    Straight (shortStream scale tile mem coordbuf strm npts idx ngeoms geomT osmtype) :=
  Straight.bind (straight_put ..) fun _ => Straight.bind (straight_put ..) fun _ =>
    Straight.bind (straight_put ..) fun _ => straight_points ..

theorem straight_ringLoop (n : Nat) (w : Walk) : Straight (ringLoop scale tile mem st n w) := by
  induction n generalizing w with
  | zero => exact straight_ok _
  | succ n ih =>
    exact Straight.bind (straight_u32 ..) fun _ => Straight.bind (straight_shortStream ..)
      fun _ => ih _

theorem straight_rowStep (w : Walk) : Straight (rowStep scale tile mem st w) := by
  refine Straight.bind (straight_u32 ..) fun t => ?_
  split_ifs
  · exact Straight.bind (straight_shortStream ..) fun _ => straight_ok _
  · exact Straight.bind (straight_u32 ..) fun _ => Straight.bind (straight_shortStream ..)
      fun _ => straight_ok _
  · exact Straight.bind (straight_u32 ..) fun _ => Straight.bind (straight_ringLoop ..)
      fun _ => straight_ok _
  · exact straight_ok _

/-- A walk that only goes forward ends within as many turns as there are bytes
in front of it. -/
theorem Increases.ends (h : Increases scale tile mem reslen st w₀) :
    Ends scale tile mem reslen st w₀ := by
  refine ⟨(reslen - w₀.geomPos).toNat, fun fuel hf => ?_⟩
  induction fuel generalizing w₀ with
  | zero =>
    rw [rowLoop, if_neg (by omega)]
    exact (straight_ok _).ne
  | succ fuel ih =>
    rw [rowLoop]
    split
    · rename_i hlt
      cases hs : rowStep scale tile mem st w₀ with
      | error e =>
        intro hrun
        exact (straight_rowStep w₀).ne (hs.trans (by simpa [bind, Except.bind] using hrun))
      | ok w' =>
        have hnext := h w₀ w' .refl hlt hs
        refine ih (fun w w'' hreach => h w w'' ?_) (by omega)
        exact hreach.after (e := ()) hlt hs
    · exact (straight_ok _).ne

/-- A loop that finds itself in front of the end after every turn runs for
ever. -/
theorem rowLoop_forever {Inv : Walk → Prop}
    (h : ∀ w, Inv w → w.geomPos < reslen ∧ ∃ w', rowStep scale tile mem st w = .ok w' ∧ Inv w')
    (h₀ : Inv w₀) (fuel : Nat) : rowLoop scale tile mem reslen st fuel w₀ = .error .outOfFuel := by
  induction fuel generalizing w₀ with
  | zero => rw [rowLoop, if_pos (h w₀ h₀).1]
  | succ fuel ih =>
    obtain ⟨hlt, w', hs, hinv⟩ := h w₀ h₀
    rw [rowLoop, if_pos hlt, hs]
    exact ih hinv

end

/-- What holds of the loop on a row, from the state it enters the row in. -/
structure WalkEnds (scale : Scale) (tile : Tms) (mem : Mem) (reslen : Int) (st : Nat)
    (w₀ : Walk) : Prop where
  /-- A turn that gets through goes forward exactly if cursor and step stay
  below 2^31. -/
  forward : ∀ w w' calls, Reachable (rowWalk scale tile mem reslen st) w₀ w →
    w.geomPos < reslen → rowStep scale tile mem st w = .ok w' →
    Turn mem st w.geomPos calls w'.geomPos →
    (w.geomPos < w'.geomPos ↔ w.geomPos + turnStep calls % 2 ^ 32 < 2 ^ 31)
  /-- If every turn goes forward, the loop ends. -/
  ends : StepsFit scale tile mem reslen st w₀ ↔
    Increases scale tile mem reslen st w₀ ∧ Ends scale tile mem reslen st w₀

/-- Forward in every turn is fitting in every turn. -/
theorem increases_iff {scale : Scale} {tile : Tms} {mem : Mem} {reslen : Int} {st : Nat}
    {w₀ : Walk} (h₀ : -2 ^ 31 ≤ w₀.geomPos ∧ w₀.geomPos < 2 ^ 31) :
    Increases scale tile mem reslen st w₀ ↔ StepsFit scale tile mem reslen st w₀ := by
  constructor
  · intro h w w' calls hreach hlt hs hturn
    exact (hturn.lt_iff (reachable_range hreach h₀)).mp (h w w' hreach hlt hs)
  · intro h w w' hreach hlt hs
    obtain ⟨calls, hturn, -⟩ := rowStep_ok.mp hs
    exact (hturn.lt_iff (reachable_range hreach h₀)).mpr (h w w' calls hreach hlt hs hturn)

/-- **The walk on any bytes.** -/
theorem walkEnds (scale : Scale) (tile : Tms) (row : Row) (s : Stream) :
    WalkEnds scale tile row.mem row.reslen (stylenum tile row.style) { s with geomPos := 1 } := by
  have h₀ : -2 ^ 31 ≤ (1 : Int) ∧ (1 : Int) < 2 ^ 31 := by norm_num
  refine ⟨?_, ?_⟩
  · intro w w' calls hreach _ _ hturn
    exact hturn.lt_iff (reachable_range hreach h₀)
  · rw [← increases_iff h₀]
    exact ⟨fun h => ⟨h, h.ends⟩, And.left⟩

-- ---------------------------------------------------------------------------
-- A row the loop never gets through
-- ---------------------------------------------------------------------------

/-- Thirteen type words to step over, two lines of no points and one of minus
nine, which puts the cursor back to the first word and the next record to
where the first one went. -/
def cycleRow : Row where
  value := List.replicate 118 0 ++ (toLe 4 2 ++ toLe 4 0 ++ [0]) ++ (toLe 4 2 ++ toLe 4 0 ++ [0]) ++
    (toLe 4 2 ++ toLe 4 (2 ^ 32 - 9))
  around := fun _ => none
  style := []

section
variable (scale : Scale) (tile : Tms)

/-- Where the next record goes after a call. -/
theorem i32_off (pt n ng : Int) :
    i32 (i32 (pt + n) * 4 + 12 * i32 (ng + 1)) = i32 (pt * 4 + 12 * ng + (4 * n + 12)) := by
  have hpt := i32_sub_mod (pt + n)
  have hng := i32_sub_mod (ng + 1)
  exact i32_congr (by omega)

/-- A line without points is its record's header. -/
theorem shortStream_header (mem : Mem) (coordbuf : Int) {n idx ngeoms o : Int} {strm : List UInt8}
    (geomT osmtype : Nat) (hn : -2 ^ 29 ≤ n ∧ n ≤ 0) (ho : i32 (idx * 4 + 12 * ngeoms) = o)
    (hfit : 0 ≤ o ∧ o + 12 ≤ strm.length) (hsmall : strm.length < 2 ^ 31) :
    ∃ strm', shortStream scale tile mem coordbuf strm n idx ngeoms geomT osmtype = .ok strm' ∧
      strm'.length = strm.length := by
  have hpts : (i32 (2 * n)).toNat / 2 = 0 := by
    rw [i32_eq (by omega) (by omega)]
    omega
  have hput : ∀ (buf : List UInt8) (i : Int) (v : Nat), buf.length = strm.length →
      0 ≤ i → i + 4 ≤ strm.length →
      ∃ buf', put buf i (toLe 4 v) = .ok buf' ∧ buf'.length = strm.length := by
    intro buf i v hb h0 h1
    have h : put buf i (toLe 4 v) = .ok _ := put_fits h0 (by rw [toLe_length]; omega)
    exact ⟨_, h, (put_ok h).2.2.1.trans hb⟩
  obtain ⟨b1, h1, hl1⟩ := hput strm o geomT rfl (by omega) (by omega)
  obtain ⟨b2, h2, hl2⟩ := hput b1 (o + 4) (n % 2 ^ 32).toNat hl1 (by omega) (by omega)
  obtain ⟨b3, h3, hl3⟩ := hput b2 (o + 8) osmtype hl2 (by omega) (by omega)
  refine ⟨b3, ?_, hl3⟩
  rw [shortStream, ho, i32_add ho (by omega), i32_add ho (by omega), hpts, h1]
  simp only [bind, Except.bind, h2, h3, shortStream.points]

/-- The turn of a line with no points or fewer. -/
theorem rowStep_header {mem : Mem} {w : Walk} {k : Nat} {n o : Int} (st : Nat)
    (ht : u32 mem w.geomPos = .ok 2)
    (hk : u32 mem (i32 (w.geomPos + 4)) = .ok k) (hn : i32 k = n) (hneg : -2 ^ 29 ≤ n ∧ n ≤ 0)
    (ho : i32 (w.ptCount * 4 + 12 * w.ngeoms) = o)
    (hfit : 0 ≤ o ∧ o + 12 ≤ w.strm.length) (hsmall : w.strm.length < 2 ^ 31) :
    ∃ w', rowStep scale tile mem st w = .ok w' ∧ w'.geomPos = i32 (w.geomPos + (n * 16 + 9)) ∧
      i32 (w'.ptCount * 4 + 12 * w'.ngeoms) = o + (4 * n + 12) ∧
      w'.strm.length = w.strm.length := by
  obtain ⟨strm, hs, hlen⟩ := shortStream_header scale tile mem (i32 (w.geomPos + 8)) 2 st hneg ho
    hfit hsmall
  refine ⟨⟨⟨i32 (w.ptCount + n), i32 (w.ngeoms + 1), strm⟩, i32 (w.geomPos + (n * 16 + 9))⟩,
    ?_, rfl, ?_, hlen⟩
  · simp only [rowStep, ht, hk, hn, bind, Except.bind]
    rw [if_neg (by decide), if_pos trivial, hs]
  · rw [i32_off]
    exact i32_add ho (by omega)

theorem cycleRow_skips : ∀ j < 13, u32 cycleRow.mem (1 + 9 * (j : Nat)) = .ok 0 := by
  decide +kernel

/-- On the cycle: so many turns from its start. -/
def OnCycle (w : Walk) : Prop :=
  ∃ j : Nat, j ≤ 15 ∧ w.geomPos = 1 + 9 * j ∧
    i32 (w.ptCount * 4 + 12 * w.ngeoms) = 12 * (j - 13 : Nat) ∧ w.strm.length = 144

/-- One of the three lines, from one place of the cycle to another. -/
theorem onCycle_line {w : Walk} {j : Nat} (st j' k : Nat) (n : Int)
    (hg : w.geomPos = 1 + 9 * j) (hj : j ≤ 15)
    (ho : i32 (w.ptCount * 4 + 12 * w.ngeoms) = 12 * (j - 13 : Nat)) (hl : w.strm.length = 144)
    (ht : u32 cycleRow.mem (1 + 9 * j) = .ok 2)
    (hk : u32 cycleRow.mem (i32 (1 + 9 * j + 4)) = .ok k) (hn : i32 k = n)
    (hneg : -2 ^ 29 ≤ n ∧ n ≤ 0) (hj' : j' ≤ 15)
    (hnext : i32 (1 + 9 * j + (n * 16 + 9)) = 1 + 9 * j')
    (hoff : (12 * (j - 13 : Nat) + (4 * n + 12) : Int) = 12 * (j' - 13 : Nat)) :
    ∃ w', rowStep scale tile cycleRow.mem st w = .ok w' ∧ OnCycle w' := by
  rw [← hg] at ht hk hnext
  obtain ⟨w', hs, hg', ho', hl'⟩ := rowStep_header scale tile st ht hk hn hneg ho (by omega)
    (by omega)
  exact ⟨w', hs, j', hj', hg'.trans hnext, ho'.trans hoff, hl'.trans hl⟩

theorem onCycle_step {w : Walk} (st : Nat) (h : OnCycle w) :
    w.geomPos < cycleRow.reslen ∧
      ∃ w', rowStep scale tile cycleRow.mem st w = .ok w' ∧ OnCycle w' := by
  have hlen : cycleRow.reslen = 144 := by decide +kernel
  obtain ⟨j, hj, hg, ho, hl⟩ := h
  refine ⟨by omega, ?_⟩
  rcases (by omega : j < 13 ∨ j = 13 ∨ j = 14 ∨ j = 15) with hskip | rfl | rfl | rfl
  · have hu := cycleRow_skips j hskip
    rw [← hg] at hu
    refine ⟨_, rowStep_skip hu (by decide), j + 1, by omega, ?_, ?_, hl⟩
    · rw [i32_eq (by omega) (by omega)]
      push_cast
      omega
    · rw [ho]
      omega
  · exact onCycle_line scale tile st 14 0 0 hg hj ho hl (by decide +kernel)
      (by decide +kernel) (by decide) (by omega) (by omega) (by decide) (by decide)
  · exact onCycle_line scale tile st 15 0 0 hg hj ho hl (by decide +kernel)
      (by decide +kernel) (by decide) (by omega) (by omega) (by decide) (by decide)
  · exact onCycle_line scale tile st 0 (2 ^ 32 - 9) (-9) hg hj ho hl
      (by decide +kernel) (by decide +kernel) (by decide) (by omega) (by omega) (by decide)
      (by decide)

end

/-- With a buffer as large as the row the loop goes round for ever, so some
turn does not go forward. -/
theorem cycleRow_never_ends : cycleRow.reslen < 2 ^ 31 ∧
    ¬ Ends (fun _ _ _ => 0) ⟨18, 0, 0⟩ cycleRow.mem cycleRow.reslen 0
        { ptCount := 0, ngeoms := 0, strm := malloc (fun _ => 0) 144, geomPos := 1 } ∧
      ¬ Increases (fun _ _ _ => 0) ⟨18, 0, 0⟩ cycleRow.mem cycleRow.reslen 0
        { ptCount := 0, ngeoms := 0, strm := malloc (fun _ => 0) 144, geomPos := 1 } := by
  have hnever : ¬ Ends (fun _ _ _ => 0) ⟨18, 0, 0⟩ cycleRow.mem cycleRow.reslen 0
      { ptCount := 0, ngeoms := 0, strm := malloc (fun _ => 0) 144, geomPos := 1 } := by
    rintro ⟨least, hends⟩
    refine hends least le_rfl (rowLoop_forever (fun w hw => onCycle_step _ _ _ hw) ?_ _)
    exact ⟨0, by omega, by norm_num, by decide, by simp⟩
  exact ⟨by decide +kernel, hnever, fun hincr => hnever hincr.ends⟩

end Canvasback
