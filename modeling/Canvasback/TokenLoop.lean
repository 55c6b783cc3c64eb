import Canvasback.PicoHttp
import Canvasback.Tile

/-!
# The token loop of `read_cb`

The loop cuts the buffer into tokens from the path pointer on, looks for one
that starts with `tms` and takes the three after it for zoom, column and row.
It does not know where the path ends: the tokens run on through the rest of the
request and whatever stands in memory behind it.

`tokenLoop_words` says what it makes of the words of the string it is put on.
-/

namespace Canvasback

open CString Memory

/-- `delims`. -/
def isDelim (b : UInt8) : Bool := b ∈ ascii "&/?,=. "

structure Longs where
  zz : Int
  xx : Int
  yy : Int
  deriving DecidableEq, Repr

/-- How the loop ends: at `CLOSE`, or with three numbers. -/
inductive Outcome where
  | close
  | tile (n : Longs)
  deriving DecidableEq, Repr

/-- The `switch` on `tms_param_cnt`. -/
def Longs.set (n : Longs) (tmsParamCnt : Nat) (v : Int) : Longs :=
  match tmsParamCnt with
  | 1 => { n with zz := v }
  | 2 => { n with xx := v }
  | 3 => { n with yy := v }
  | _ => n

/-- `while ((qval != NULL) && (tms_param_cnt <= 3))`; `left` is
`4 - tms_param_cnt`. -/
def tmsLoop : (left : Nat) → (qval : Option (List UInt8 × List UInt8)) → Longs → Longs
  | left + 1, some (qval, save), n =>
    tmsLoop left (strtok isDelim save) (n.set (3 - left) (strtol qval))
  | _, _, n => n

/-- `while (qval != NULL)`; the round that brings `spun_out` to 46 is the last. -/
def tokenLoop.go : (fuel : Nat) → (spunOut : Nat) → (qval : Option (List UInt8 × List UInt8)) →
    Outcome
  | _, _, none => .tile ⟨-1, -1, -1⟩
  | 0, _, some _ => .close
  | fuel + 1, spunOut, some (qval, save) =>
    let spunOut := spunOut + 1
    if memcmpEq qval (ascii "favicon.ico") 8 then .close
    else if memcmpEq qval (ascii "tms") 3 then
      .tile (tmsLoop 3 (strtok isDelim save) ⟨-1, -1, -1⟩)
    else if memcmpEq qval (ascii "HTTP/1") 6 then .tile ⟨-1, -1, -1⟩
    else if 45 < spunOut then .close
    else tokenLoop.go fuel spunOut (strtok isDelim save)

/-- From the first `strtok` on; `path` is memory from the path pointer on. -/
def tokenLoop (path : List UInt8) : Outcome := tokenLoop.go 46 0 (strtok isDelim path)

-- ---------------------------------------------------------------------------
-- The loop on words
-- ---------------------------------------------------------------------------

/-- A token the loop takes for the marker. -/
def IsTms (w : List UInt8) : Prop := ascii "tms" <+: w

instance (w : List UInt8) : Decidable (IsTms w) := by
  unfold IsTms
  infer_instance

/-- The numbers of the tokens after the marker; -1 for those that are missing. -/
def numbers (ns : List (List UInt8)) : Longs where
  zz := (ns[0]?.map strtol).getD (-1)
  xx := (ns[1]?.map strtol).getD (-1)
  yy := (ns[2]?.map strtol).getD (-1)

theorem strtok_none (h : strtok isDelim s = none) : words isDelim s = [] := by
  rw [strtok_words (by decide), h]

theorem strtok_some (h : strtok isDelim s = some (qval, save)) :
    words isDelim s = cstr qval :: words isDelim save := by
  rw [strtok_words (by decide), h]

theorem tmsLoop_words (s : List UInt8) :
    tmsLoop 3 (strtok isDelim s) ⟨-1, -1, -1⟩ = numbers (words isDelim s) := by
  cases h₁ : strtok isDelim s with
  | none => rw [strtok_none h₁]; rfl
  | some v₁ =>
    obtain ⟨q₁, s₁⟩ := v₁
    rw [strtok_some h₁]
    cases h₂ : strtok isDelim s₁ with
    | none => simp [tmsLoop, Longs.set, numbers, strtok_none h₂, h₂, strtol_cstr]
    | some v₂ =>
      obtain ⟨q₂, s₂⟩ := v₂
      rw [strtok_some h₂]
      cases h₃ : strtok isDelim s₂ with
      | none => simp [tmsLoop, Longs.set, numbers, strtok_none h₃, h₂, h₃, strtol_cstr]
      | some v₃ =>
        obtain ⟨q₃, s₃⟩ := v₃
        simp [tmsLoop, Longs.set, numbers, strtok_some h₃, h₂, h₃, strtol_cstr]

/-- No token holds a delimiter, so the two markers that do are never found. -/
theorem memcmpEq_delim (lit : List UInt8) (h : strtok isDelim s = some (qval, save)) (h0 : 0 ∉ lit)
    (hd : ∃ b ∈ lit, isDelim b = true) : memcmpEq qval lit lit.length = false := by
  have hw : cstr qval ∈ words isDelim s := by simp [strtok_some h]
  obtain ⟨b, hb, hbd⟩ := hd
  rw [← Bool.not_eq_true, memcmpEq_iff h0 rfl]
  intro hp
  have := ((mem_words hw).2 b (hp.subset hb)).2
  simp [hbd] at this

theorem go_step (h : strtok isDelim s = some (qval, save)) :
    tokenLoop.go (fuel + 1) spunOut (strtok isDelim s) =
      if IsTms (cstr qval) then .tile (numbers (words isDelim save))
      else if 45 < spunOut + 1 then .close
      else tokenLoop.go fuel (spunOut + 1) (strtok isDelim save) := by
  have hfav : memcmpEq qval (ascii "favicon.ico") 8 = false :=
    memcmpEq_delim (ascii "favicon.") h (by decide) ⟨46, by decide, by decide⟩
  have hhttp : memcmpEq qval (ascii "HTTP/1") 6 = false :=
    memcmpEq_delim _ h (by decide) ⟨47, by decide, by decide⟩
  have htms : memcmpEq qval (ascii "tms") 3 = true ↔ IsTms (cstr qval) :=
    memcmpEq_iff (by decide) rfl
  simp only [h, tokenLoop.go, hfav, hhttp, Bool.false_eq_true, if_false, htms, tmsLoop_words]

theorem go_tms (hs : words isDelim s = front ++ w :: ns) (hfront : ∀ v ∈ front, ¬ IsTms v)
    (hw : IsTms w) (hlen : front.length + spunOut ≤ 45) (hf : fuel + spunOut = 46) :
    tokenLoop.go fuel spunOut (strtok isDelim s) = .tile (numbers ns) := by
  induction front generalizing s fuel spunOut with
  | nil =>
    obtain ⟨fuel, rfl⟩ : ∃ k, fuel = k + 1 := ⟨fuel - 1, by simp at hlen; omega⟩
    cases h : strtok isDelim s with
    | none => simp [strtok_none h] at hs
    | some v =>
      rw [strtok_some h, List.nil_append, List.cons.injEq] at hs
      rw [← h, go_step h, hs.1, if_pos hw, hs.2]
  | cons v front ih =>
    simp only [List.length_cons] at hlen
    obtain ⟨fuel, rfl⟩ : ∃ k, fuel = k + 1 := ⟨fuel - 1, by omega⟩
    cases h : strtok isDelim s with
    | none => simp [strtok_none h] at hs
    | some t =>
      rw [strtok_some h, List.cons_append, List.cons.injEq] at hs
      rw [← h, go_step h, hs.1, if_neg (hfront v (by simp)), if_neg (by omega)]
      exact ih hs.2 (fun u hu => hfront u (by simp [hu])) (by omega) (by omega)

theorem go_exhausted (hs : ∀ v ∈ words isDelim s, ¬ IsTms v)
    (hlen : (words isDelim s).length + spunOut ≤ 45) (hf : fuel + spunOut = 46) :
    tokenLoop.go fuel spunOut (strtok isDelim s) = .tile ⟨-1, -1, -1⟩ := by
  induction fuel generalizing s spunOut with
  | zero => omega
  | succ fuel ih =>
    cases h : strtok isDelim s with
    | none => rfl
    | some t =>
      rw [strtok_some h] at hs hlen
      simp only [List.length_cons] at hlen
      rw [← h, go_step h, if_neg (hs _ (by simp)), if_neg (by omega)]
      exact ih (fun u hu => hs u (by simp [hu])) (by omega) (by omega)

theorem go_close (hs : ∀ v ∈ (words isDelim s).take (46 - spunOut), ¬ IsTms v)
    (hlen : 46 ≤ (words isDelim s).length + spunOut) (hspun : spunOut ≤ 45)
    (hf : fuel + spunOut = 46) :
    tokenLoop.go fuel spunOut (strtok isDelim s) = .close := by
  induction fuel generalizing s spunOut with
  | zero => omega
  | succ fuel ih =>
    cases h : strtok isDelim s with
    | none =>
      rw [strtok_none h] at hlen
      simp only [List.length_nil] at hlen
      omega
    | some t =>
      rw [strtok_some h] at hs hlen
      simp only [List.length_cons] at hlen
      rw [show 46 - spunOut = 45 - spunOut + 1 by omega, List.take_succ_cons] at hs
      rw [← h, go_step h, if_neg (hs _ (by simp))]
      split
      · rfl
      · rw [show 45 - spunOut = 46 - (spunOut + 1) by omega] at hs
        exact ih (fun u hu => hs u (List.mem_cons_of_mem _ hu)) (by omega) (by omega) (by omega)

/-- The three ways a list of tokens can be: with a marker among the first 46,
without one and shorter, without one and at least so long. -/
inductive Tokens : List (List UInt8) → Outcome → Prop
  | tms (hfront : ∀ v ∈ front, ¬ IsTms v) (hw : IsTms w) (hlen : front.length ≤ 45) :
    Tokens (front ++ w :: ns) (.tile (numbers ns))
  | exhausted (hws : ∀ v ∈ ws, ¬ IsTms v) (hlen : ws.length ≤ 45) :
    Tokens ws (.tile ⟨-1, -1, -1⟩)
  | close (hws : ∀ v ∈ ws.take 46, ¬ IsTms v) (hlen : 46 ≤ ws.length) : Tokens ws .close

theorem tokens_total (ws : List (List UInt8)) : ∃ o, Tokens ws o := by
  cases hf : (ws.take 46).find? fun v => decide (IsTms v) with
  | some w =>
    obtain ⟨hw, front, ns, htake, hfront⟩ := List.find?_eq_some_iff_append.mp hf
    have hlen := congrArg List.length htake
    simp only [List.length_take, List.length_append, List.length_cons] at hlen
    have hws : ws = front ++ w :: (ns ++ ws.drop 46) := by
      conv_lhs => rw [← List.take_append_drop 46 ws, htake]
      simp
    rw [hws]
    exact ⟨_, .tms (fun v hv => by simpa using hfront v hv) (by simpa using hw) (by omega)⟩
  | none =>
    have hn : ∀ v ∈ ws.take 46, ¬ IsTms v := fun v hv => by
      simpa using List.find?_eq_none.mp hf v hv
    rcases le_or_gt ws.length 45 with hl | hl
    · exact ⟨_, .exhausted (fun v hv => hn v (by rwa [List.take_of_length_le (by omega)])) hl⟩
    · exact ⟨_, .close hn hl⟩

/-- **The token loop.** -/
theorem tokenLoop_words (hs : words isDelim s = ws) (h : Tokens ws o) : tokenLoop s = o := by
  unfold tokenLoop
  cases h with
  | tms hfront hw hlen => exact go_tms hs hfront hw (by omega) rfl
  | exhausted hws hlen => exact go_exhausted (hs ▸ hws) (by rw [hs]; omega) rfl
  | close hws hlen => exact go_close (by simpa [hs] using hws) (by rw [hs]; omega) (by omega) rfl

end Canvasback
