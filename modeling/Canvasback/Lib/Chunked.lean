import Mathlib.Data.List.TakeWhile
import Mathlib.Data.Option.Basic
import Mathlib.Tactic.Ring

/-!
# The chunked transfer coding

A body is a run of chunks, each its size in hex, a line end, that many bytes
and a line end, closed by a chunk of size zero and an empty line. `decode`
reads one body off the front of a string; `decode_encode` is the round trip.
-/

namespace Canvasback.Chunked

/-- `%x`. -/
def hex (n : Nat) : List UInt8 := (Nat.toDigits 16 n).map fun c => UInt8.ofNat c.toNat

def hexVal (b : UInt8) : Option Nat :=
  if 48 ≤ b ∧ b ≤ 57 then some (b.toNat - 48)
  else if 97 ≤ b ∧ b ≤ 102 then some (b.toNat - 87)
  else if 65 ≤ b ∧ b ≤ 70 then some (b.toNat - 55)
  else none

def isHex (b : UInt8) : Bool := (hexVal b).isSome

def unhex (digits : List UInt8) : Nat := digits.foldl (fun n b => 16 * n + (hexVal b).getD 0) 0

def crlf : List UInt8 := [13, 10]

def chunk (data : List UInt8) : List UInt8 := hex data.length ++ crlf ++ data ++ crlf

def lastChunk : List UInt8 := [48] ++ crlf ++ crlf

def encode (chunks : List (List UInt8)) : List UInt8 := chunks.flatMap chunk ++ lastChunk

/-- The size a chunk starts with, and what stands behind its line. -/
def readSize (s : List UInt8) : Option (Nat × List UInt8) :=
  match s.takeWhile isHex, s.dropWhile isHex with
  | [], _ => none
  | digits, 13 :: 10 :: rest => some (unhex digits, rest)
  | _, _ => none

/-- Reads at most so many chunks. -/
def readChunks : Nat → List UInt8 → Option (List UInt8 × List UInt8)
  | 0, _ => none
  | n + 1, s =>
    match readSize s with
    | none => none
    | some (0, 13 :: 10 :: rest) => some ([], rest)
    | some (0, _) => none
    | some (size + 1, s) =>
      match s.drop (size + 1) with
      | 13 :: 10 :: rest => (readChunks n rest).map fun (data, rest) =>
          (s.take (size + 1) ++ data, rest)
      | _ => none

/-- The data of the body a string starts with, and what follows the body. -/
def decode (s : List UInt8) : Option (List UInt8 × List UInt8) := readChunks s.length s

-- ---------------------------------------------------------------------------
-- Sizes
-- ---------------------------------------------------------------------------

theorem hexVal_digitChar (h : n < 16) : hexVal (UInt8.ofNat n.digitChar.toNat) = some n := by
  revert h
  revert n
  decide

theorem hex_lt (h : n < 16) : hex n = [UInt8.ofNat n.digitChar.toNat] := by
  rw [hex, Nat.toDigits_of_lt_base h]
  rfl

theorem hex_step (h : 16 ≤ n) : hex n = hex (n / 16) ++ hex (n % 16) := by
  rw [hex_lt (Nat.mod_lt n (by decide)), hex, hex, Nat.toDigits_of_base_le (by decide) h,
    List.map_append]
  rfl

theorem hex_spec (n : Nat) : hex n ≠ [] ∧ (∀ b ∈ hex n, isHex b = true) ∧
    ∀ m, (hex n).foldl (fun n b => 16 * n + (hexVal b).getD 0) m = 16 ^ (hex n).length * m + n := by
  induction n using Nat.strong_induction_on with
  | _ n ih =>
    rcases Nat.lt_or_ge n 16 with h | h
    · rw [hex_lt h]
      refine ⟨by simp, ?_, fun m => by simp [hexVal_digitChar h]⟩
      intro b hb
      rw [List.mem_singleton.mp hb, isHex, hexVal_digitChar h]
      rfl
    · have hlt : n % 16 < 16 := Nat.mod_lt n (by decide)
      obtain ⟨hne, hhex, hfold⟩ := ih (n / 16) (by omega)
      rw [hex_step h, hex_lt hlt]
      refine ⟨by simp, ?_, fun m => ?_⟩
      · intro b hb
        rcases List.mem_append.mp hb with hb | hb
        · exact hhex b hb
        · rw [List.mem_singleton.mp hb, isHex, hexVal_digitChar hlt]
          rfl
      · rw [List.foldl_append, hfold]
        simp only [List.foldl_cons, List.foldl_nil, hexVal_digitChar hlt, Option.getD_some,
          List.length_append, List.length_singleton, Nat.pow_succ]
        have hm : 16 ^ (hex (n / 16)).length * 16 * m = 16 * (16 ^ (hex (n / 16)).length * m) := by
          rw [Nat.mul_assoc, Nat.mul_left_comm]
        omega

theorem unhex_hex (n : Nat) : unhex (hex n) = n := by
  rw [unhex, (hex_spec n).2.2, Nat.mul_zero, Nat.zero_add]

theorem readSize_hex (n : Nat) (rest : List UInt8) :
    readSize (hex n ++ 13 :: 10 :: rest) = some (n, rest) := by
  obtain ⟨hne, hhex, -⟩ := hex_spec n
  have ht : (hex n ++ 13 :: 10 :: rest).takeWhile isHex = hex n := by
    rw [List.takeWhile_append_of_pos hhex, List.takeWhile_cons_of_neg (by decide), List.append_nil]
  have hd : (hex n ++ 13 :: 10 :: rest).dropWhile isHex = 13 :: 10 :: rest := by
    rw [List.dropWhile_append_of_pos hhex, List.dropWhile_cons_of_neg (by decide)]
  obtain ⟨b, bs, hb⟩ := List.exists_cons_of_ne_nil hne
  rw [readSize, ht, hd, hb]
  simp only
  rw [← hb, unhex_hex]

-- ---------------------------------------------------------------------------
-- Bodies
-- ---------------------------------------------------------------------------

theorem readChunks_encode (h : ∀ data ∈ chunks, data ≠ []) (hn : chunks.length < n)
    (rest : List UInt8) : readChunks n (encode chunks ++ rest) = some (chunks.flatten, rest) := by
  induction chunks generalizing n with
  | nil =>
    obtain ⟨n, rfl⟩ : ∃ k, n = k + 1 := ⟨n - 1, by simp at hn; omega⟩
    have hlast : encode [] ++ rest = hex 0 ++ 13 :: 10 :: 13 :: 10 :: rest := rfl
    rw [hlast, readChunks, readSize_hex]
    rfl
  | cons data chunks ih =>
    simp only [List.length_cons] at hn
    obtain ⟨n, rfl⟩ : ∃ k, n = k + 1 := ⟨n - 1, by omega⟩
    obtain ⟨size, hsize⟩ : ∃ k, data.length = k + 1 :=
      ⟨data.length - 1, by have := List.length_pos_iff.mpr (h data (by simp)); omega⟩
    have hsplit : encode (data :: chunks) ++ rest =
        hex data.length ++ 13 :: 10 :: (data ++ 13 :: 10 :: (encode chunks ++ rest)) := by
      simp [encode, chunk, crlf]
    rw [hsplit, readChunks, readSize_hex, hsize]
    simp only
    rw [← hsize, List.drop_left, List.take_left]
    simp only
    rw [ih (fun data hd => h data (by simp [hd])) (by omega)]
    simp

theorem length_le_encode (chunks : List (List UInt8)) : chunks.length < (encode chunks).length := by
  induction chunks with
  | nil => decide
  | cons data chunks ih =>
    have hc : encode (data :: chunks) = chunk data ++ encode chunks := by simp [encode]
    have hpos : 0 < (chunk data).length := by
      simp only [chunk, crlf, List.length_append, List.length_cons]
      omega
    rw [hc, List.length_append, List.length_cons]
    omega

/-- A body reads back as the data of its chunks, up to its own end. -/
theorem decode_encode (h : ∀ data ∈ chunks, data ≠ []) (rest : List UInt8) :
    decode (encode chunks ++ rest) = some (chunks.flatten, rest) := by
  have := length_le_encode chunks
  exact readChunks_encode h (by rw [List.length_append]; omega) rest

end Canvasback.Chunked
