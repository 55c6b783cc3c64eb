import Mathlib.Data.List.Basic

/-!
# Writes cut short

A write to a non-blocking socket takes a front of its bytes, or none of them.
`fates` says byte by byte what becomes of a message that is written in pieces,
each attempted once: what arrives is the front of the message exactly if
nothing is taken any more after a piece that was cut short (`inOrder_iff`).
-/

namespace Canvasback.Delivery

/-- What `write` returns: how much it took, or -1 with `EAGAIN`. -/
inductive WriteResult where
  | accepted (n : Nat)
  | again
  deriving DecidableEq, Repr

def WriteResult.count : WriteResult → Nat
  | .accepted n => n
  | .again => 0

/-- A write and its result. -/
structure Attempt (α : Type) where
  bytes : List α
  result : WriteResult
  deriving DecidableEq, Repr

section
variable {α : Type}

def Attempt.taken (a : Attempt α) : List α := a.bytes.take a.result.count

def Attempt.dropped (a : Attempt α) : List α := a.bytes.drop a.result.count

def Attempt.Short (a : Attempt α) : Prop := a.result.count < a.bytes.length

instance (a : Attempt α) : Decidable a.Short := inferInstanceAs (Decidable (_ < _))

/-- For each byte, whether it is taken. -/
def Attempt.fates (a : Attempt α) : List Bool :=
  a.taken.map (fun _ => true) ++ a.dropped.map (fun _ => false)

/-- One attempt for each write. -/
def attempts (writes : List (List α)) (results : Nat → WriteResult) : List (Attempt α) :=
  writes.mapIdx fun i bytes => ⟨bytes, results i⟩

def fates (as : List (Attempt α)) : List Bool := as.flatMap Attempt.fates

/-- The bytes that are let through. -/
def kept (bytes : List α) (fates : List Bool) : List α :=
  ((bytes.zip fates).filter Prod.snd).map Prod.fst

/-- A byte that arrives is behind no byte that does not. -/
def InOrder (fates : List Bool) : Prop := fates.Pairwise fun a b => b = true → a = true

instance (fates : List Bool) : Decidable (InOrder fates) :=
  inferInstanceAs (Decidable (fates.Pairwise _))

/-- After an attempt that was cut short nothing is taken. -/
def Stops (as : List (Attempt α)) : Prop := as.Pairwise fun a b => a.Short → b.taken = []

instance [DecidableEq α] (as : List (Attempt α)) : Decidable (Stops as) :=
  inferInstanceAs (Decidable (as.Pairwise _))

-- ---------------------------------------------------------------------------
-- Attempts
-- ---------------------------------------------------------------------------

theorem attempts_bytes (writes : List (List α)) (results : Nat → WriteResult) :
    (attempts writes results).map Attempt.bytes = writes := by
  induction writes generalizing results with
  | nil => rfl
  | cons bytes writes ih =>
    rw [attempts, List.mapIdx_cons, List.map_cons]
    exact congrArg (bytes :: ·) (ih fun i => results (i + 1))

theorem attempts_flatten (writes : List (List α)) (results : Nat → WriteResult) :
    (attempts writes results).flatMap Attempt.bytes = writes.flatten := by
  rw [List.flatMap_def, attempts_bytes]

theorem Attempt.taken_append_dropped (a : Attempt α) : a.taken ++ a.dropped = a.bytes :=
  List.take_append_drop ..

theorem Attempt.short_iff {a : Attempt α} : a.Short ↔ a.dropped ≠ [] := by
  simp [Short, dropped]

theorem Attempt.taken_of_full {a : Attempt α} (h : ¬ a.Short) : a.taken = a.bytes :=
  List.take_of_length_le (Nat.not_lt.mp h)

theorem Attempt.fates_length (a : Attempt α) : a.fates.length = a.bytes.length := by
  rw [← a.taken_append_dropped]
  simp [fates]

theorem kept_append (h : fs.length = bs.length) (bs' : List α) (fs' : List Bool) :
    kept (bs ++ bs') (fs ++ fs') = kept bs fs ++ kept bs' fs' := by
  simp only [kept, List.zip_append h.symm, List.filter_append, List.map_append]

theorem kept_all (bs : List α) : kept bs (bs.map fun _ => true) = bs := by
  induction bs with
  | nil => rfl
  | cons b bs ih => simpa [kept] using ih

theorem kept_none (bs : List α) : kept bs (bs.map fun _ => false) = [] := by
  induction bs with
  | nil => rfl
  | cons b bs ih => simpa [kept] using ih

theorem Attempt.kept_fates (a : Attempt α) : kept a.bytes a.fates = a.taken := by
  conv_lhs => rw [← a.taken_append_dropped]
  rw [fates, kept_append (by simp), kept_all, kept_none, List.append_nil]

/-- What arrives of a message. -/
theorem kept_fates (as : List (Attempt α)) :
    kept (as.flatMap Attempt.bytes) (fates as) = as.flatMap Attempt.taken := by
  induction as with
  | nil => rfl
  | cons a as ih =>
    rw [fates] at ih ⊢
    rw [List.flatMap_cons, List.flatMap_cons, List.flatMap_cons, kept_append a.fates_length, ih,
      a.kept_fates]

-- ---------------------------------------------------------------------------
-- In order
-- ---------------------------------------------------------------------------

theorem Attempt.fates_inOrder (a : Attempt α) : InOrder a.fates := by
  rw [InOrder, fates, List.pairwise_append, List.pairwise_map, List.pairwise_map]
  refine ⟨?_, ?_, ?_⟩
  · exact List.pairwise_of_forall fun _ _ _ => rfl
  · exact List.pairwise_of_forall fun _ _ h => h
  · intro x hx y hy h
    obtain ⟨_, -, rfl⟩ := List.mem_map.mp hx
    rfl

/-- One attempt before another. -/
theorem fates_cross {a b : Attempt α} :
    (∀ x ∈ a.fates, ∀ y ∈ b.fates, y = true → x = true) ↔ (a.Short → b.taken = []) := by
  rw [Attempt.short_iff]
  constructor
  · intro h hd
    by_contra hne
    obtain ⟨d, hd⟩ := List.exists_mem_of_ne_nil _ hd
    obtain ⟨t, ht⟩ := List.exists_mem_of_ne_nil _ hne
    have hx : false ∈ a.fates := List.mem_append_right _ (List.mem_map.mpr ⟨d, hd, rfl⟩)
    have hy : true ∈ b.fates := List.mem_append_left _ (List.mem_map.mpr ⟨t, ht, rfl⟩)
    exact absurd (h _ hx _ hy rfl) (by decide)
  · rintro h x hx y hy rfl
    rcases List.mem_append.mp hx with hx | hx
    · obtain ⟨_, -, rfl⟩ := List.mem_map.mp hx
      rfl
    · obtain ⟨d, hd, -⟩ := List.mem_map.mp hx
      have hnone := h (List.ne_nil_of_mem hd)
      simp [Attempt.fates, hnone] at hy

/-- **In order exactly if the writer's peer stops.** -/
theorem inOrder_iff (as : List (Attempt α)) : InOrder (fates as) ↔ Stops as := by
  simp only [InOrder, fates, List.pairwise_flatMap, Stops, fates_cross]
  exact and_iff_right fun a _ => a.fates_inOrder

/-- What arrives in order is a front of the message. -/
theorem InOrder.kept_prefix {fs : List Bool} (h : InOrder fs) (bs : List α) :
    kept bs fs <+: bs := by
  induction bs generalizing fs with
  | nil => simp [kept]
  | cons b bs ih =>
    cases fs with
    | nil => simp [kept]
    | cons f fs =>
      obtain ⟨hf, hfs⟩ := List.pairwise_cons.mp h
      cases f with
      | true =>
        obtain ⟨rest, hrest⟩ := ih hfs
        exact ⟨rest, by simpa [kept] using hrest⟩
      | false =>
        have hnone : kept bs fs = [] := by
          rw [kept, List.map_eq_nil_iff, List.filter_eq_nil_iff]
          intro p hp hs
          exact absurd (hf _ (List.of_mem_zip hp).2 hs) (by decide)
        refine ⟨b :: bs, ?_⟩
        simpa [kept] using hnone

end

end Canvasback.Delivery
