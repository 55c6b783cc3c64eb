import Canvasback.TokenLoop.PathAlone

/-!
# Which requests ask for a real tile

The loop leaves with three numbers whether or not it found a marker, and
nothing behind it looks at them. A request meets the address form only if the
loop closes or the numbers it takes are those the path asks for.
-/

namespace Canvasback

open CString Memory

/-- `client->tile`, from the numbers of the loop. -/
def Longs.tile (n : Longs) : Tms := ⟨i32 n.zz, i32 n.xx, i32 (shl1 n.zz - n.yy)⟩

/-- Nothing is lost on the way from `long` to `int`, and the shift is one C
defines. -/
structure Longs.Kept (n : Longs) : Prop where
  shift : ShiftDefined n.zz
  z : n.tile.z = n.zz
  x : n.tile.x = n.xx
  y : n.tile.y = shl1 n.zz - n.yy

def InRange (z x y : Int) : Prop :=
  0 ≤ z ∧ z ≤ 30 ∧ 0 ≤ x ∧ x < 2 ^ z.toNat ∧ 0 ≤ y ∧ y < 2 ^ z.toNat

/-- The path holds a token starting with `tms` and after it three tokens that
begin with these decimal integers. -/
def Asks (path : List UInt8) (z x y : Int) : Prop :=
  ∃ front w a b c rest, words isDelim path = front ++ w :: a :: b :: c :: rest ∧ IsTms w ∧
    decimal? a = some z ∧ decimal? b = some x ∧ decimal? c = some y

/-- If the loop does not close, its numbers are those of a tile the path asks
for, and they reach `client->tile` unharmed. -/
def Reading.RealTile (r : Reading) : Prop := ∀ n, r.outcome = .tile n →
  ∃ z x y, Asks r.request.path z x y ∧ InRange z x y ∧ n.tile = ⟨z, x, 2 ^ z.toNat - y⟩ ∧ n.Kept

/-- The first token of the path that starts with `tms` is one of its first 46,
and the three after it read as numbers in range the path asks for. -/
def ReadsReal (path : List UInt8) : Prop :=
  ∃ front w a b c rest, words isDelim path = front ++ w :: a :: b :: c :: rest ∧
    (∀ v ∈ front, ¬ IsTms v) ∧ IsTms w ∧ front.length ≤ 45 ∧
    InRange (strtol a) (strtol b) (strtol c) ∧ Asks path (strtol a) (strtol b) (strtol c)

/-- There are 46 tokens, and none of the first 46 starts with `tms`. -/
def GivesUp (s : List UInt8) : Prop :=
  (∀ v ∈ (words isDelim s).take 46, ¬ IsTms v) ∧ 46 ≤ (words isDelim s).length

/-- The loop gives up on what stands from the path on. -/
def Reading.TooMany (r : Reading) : Prop := GivesUp r.memory

/-- The loop closes in no other case. -/
theorem tokenLoop_close : tokenLoop s = .close ↔ GivesUp s := by
  constructor
  · intro hclose
    obtain ⟨o, ho⟩ := tokens_total (words isDelim s)
    rw [tokenLoop_words rfl ho] at hclose
    generalize hws : words isDelim s = ws at ho
    cases ho with
    | tms | exhausted => cases hclose
    | close hn hlen => exact ⟨by rwa [hws], by rwa [hws]⟩
  · rintro ⟨hn, hlen⟩
    exact tokenLoop_words rfl (.close hn hlen)

-- ---------------------------------------------------------------------------
-- Numbers in range
-- ---------------------------------------------------------------------------

theorem InRange.kept {n : Longs} (h : InRange n.zz n.xx n.yy) :
    n.tile = ⟨n.zz, n.xx, 2 ^ n.zz.toNat - n.yy⟩ ∧ n.Kept := by
  obtain ⟨hz0, hz, hx0, hx, hy0, hy⟩ := h
  have hshift : ShiftDefined n.zz := ⟨hz0, hz⟩
  have hp : (2 : Int) ^ n.zz.toNat ≤ 2 ^ 30 := pow_le_pow_right₀ (by norm_num) (by omega)
  have ht : n.tile = ⟨n.zz, n.xx, 2 ^ n.zz.toNat - n.yy⟩ := by
    rw [Longs.tile, shl1_eq hshift, i32_eq (by omega) (by omega), i32_eq (by omega) (by omega),
      i32_eq (by omega) (by omega)]
  exact ⟨ht, hshift, by rw [ht], by rw [ht], by rw [ht, shl1_eq hshift]⟩

theorem Longs.Kept.eq {n : Longs} {z x y : Int} (h : n.Kept)
    (ht : n.tile = ⟨z, x, 2 ^ z.toNat - y⟩) : n = ⟨z, x, y⟩ := by
  obtain ⟨hshift, hz, hx, hy⟩ := h
  rw [ht] at hz hx hy
  obtain ⟨zz, xx, yy⟩ := n
  simp only at hz hx hy hshift
  subst hz hx
  rw [shl1_eq hshift] at hy
  congr 1
  omega

-- ---------------------------------------------------------------------------
-- The first marker
-- ---------------------------------------------------------------------------

/-- The tokens of the path come first. -/
theorem Reading.words_prefix (r : Reading) :
    words isDelim r.request.path <+: words isDelim r.memory := by
  by_cases h0 : 0 ∈ r.request.path
  · obtain ⟨d, more, hmem, -⟩ := r.memory_eq
    rw [hmem, words_of_mem h0]
  · obtain ⟨w, ws, hw, -⟩ := r.words_eq h0
    exact ⟨_, hw.symm⟩

/-- If a list has a marker, its first is the first of every longer list. -/
theorem first_tms (h : ws ++ more = front ++ w :: ns) (hfront : ∀ v ∈ front, ¬ IsTms v)
    (hv : v ∈ ws) (htms : IsTms v) : ∃ ns', ws = front ++ w :: ns' ∧ ns = ns' ++ more := by
  rcases List.append_eq_append_iff.mp h with ⟨t, hf, -⟩ | ⟨t, hws, ht⟩
  · exact absurd htms (hfront v (by simp [hf, hv]))
  · cases t with
    | nil =>
      rw [List.append_nil] at hws
      exact absurd htms (hfront v (hws ▸ hv))
    | cons u t =>
      simp only [List.cons_append, List.cons.injEq] at ht
      exact ⟨t, by rw [hws, ht.1], ht.2⟩

/-- Behind the first marker there is as much as behind any other. -/
theorem length_after_first (h : front ++ w :: ns = front' ++ w' :: ns')
    (hfront : ∀ v ∈ front, ¬ IsTms v) (htms : IsTms w') : ns'.length ≤ ns.length := by
  obtain ⟨t, ht, -⟩ | ⟨t, ht, htail⟩ := List.append_eq_append_iff.mp h
  · have := congrArg List.length h
    have := congrArg List.length ht
    simp only [List.length_append, List.length_cons] at *
    omega
  · cases t with
    | nil =>
      simp only [List.nil_append, List.cons.injEq] at htail
      rw [htail.2]
    | cons u t =>
      simp only [List.cons_append, List.cons.injEq] at htail
      exact absurd (htail.1 ▸ htms) (hfront u (by simp [ht]))

/-- **Which requests ask for a real tile.** -/
theorem realTile_iff (r : Reading) : r.RealTile ↔ r.TooMany ∨ ReadsReal r.request.path := by
  obtain ⟨more, hmore⟩ := r.words_prefix
  constructor
  · intro hreal
    obtain ⟨o, ho⟩ := tokens_total (words isDelim r.memory)
    have hout : r.outcome = o := tokenLoop_words rfl ho
    generalize hws : words isDelim r.memory = ws at ho
    cases ho with
    | close hn hlen => exact .inl ⟨by rwa [hws], by rwa [hws]⟩
    | exhausted hn hlen =>
      obtain ⟨z, x, y, ⟨front, w, a, b, c, rest, hp, hw, -⟩, -⟩ := hreal _ hout
      exact absurd hw (hn w (by rw [← hws, ← hmore, hp]; simp))
    | @tms front w ns hfront hw hlen =>
      obtain ⟨z, x, y, hasks, hrange, htile, hkept⟩ := hreal _ hout
      obtain ⟨front', w', a', b', c', rest', hp, hw', -⟩ := id hasks
      rw [hws] at hmore
      obtain ⟨ns', hns', rfl⟩ := first_tms hmore hfront (by rw [hp]; simp) hw'
      have hl := length_after_first (hns'.symm.trans hp) hfront hw'
      -- so the three tokens the loop takes are the path's
      obtain ⟨a, b, c, rest, rfl⟩ : ∃ a b c rest, ns' = a :: b :: c :: rest := by
        simp only [List.length_cons] at hl
        rcases ns' with _ | ⟨a, _ | ⟨b, _ | ⟨c, rest⟩⟩⟩
        · simp at hl
        · simp at hl
        · simp at hl
        · exact ⟨a, b, c, rest, rfl⟩
      have hn : numbers (a :: b :: c :: rest ++ more) = ⟨z, x, y⟩ := hkept.eq htile
      rw [numbers_append _ _ (by simp)] at hn
      obtain ⟨rfl, rfl, rfl⟩ : strtol a = z ∧ strtol b = x ∧ strtol c = y := by
        simpa [numbers] using hn
      exact .inr ⟨front, w, a, b, c, rest, hns', hfront, hw, hlen, hrange, hasks⟩
  · rintro (⟨hn, hlen⟩ | ⟨front, w, a, b, c, rest, hp, hfront, hw, hlen, hrange, hasks⟩) n hout
    · rw [show r.outcome = .close from tokenLoop_close.mpr ⟨hn, hlen⟩] at hout
      cases hout
    · rw [hp, List.append_assoc, List.cons_append] at hmore
      rw [Reading.outcome, tokenLoop_words hmore.symm (.tms hfront hw hlen),
        numbers_append _ _ (by simp)] at hout
      cases hout
      obtain ⟨htile, hkept⟩ := InRange.kept (n := numbers (a :: b :: c :: rest)) hrange
      exact ⟨_, _, _, hasks, hrange, htile, hkept⟩

def favicon : Reading where
  data := ascii "GET /favicon.ico HTTP/1.1\r\n\r\n"
  behind := []
  request := ⟨ascii "GET", ascii "/favicon.ico", 4, 1, []⟩
  n := 29
  fits := by decide
  accepted := by decide +kernel

/-- It goes on to the database, for a tile whose zoom is -1. -/
theorem favicon_not_real : favicon.outcome = .tile ⟨-1, -1, -1⟩ ∧ ¬ ShiftDefined (-1) ∧
    ¬ favicon.RealTile := by
  have hout : favicon.outcome = .tile ⟨-1, -1, -1⟩ := by decide +kernel
  refine ⟨hout, by decide, fun h => ?_⟩
  obtain ⟨-, -, -, -, -, -, hkept⟩ := h _ hout
  exact absurd hkept.shift (by decide)

end Canvasback
