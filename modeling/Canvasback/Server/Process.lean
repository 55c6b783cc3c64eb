import Canvasback.Picoev
import Canvasback.Server.Sound

/-!
# The process

What `Canvasback.Server` leaves to the system can end the process too. A write
to a client that is gone raises SIGPIPE, which nothing catches. And picoev
waits in `select`, whose sets have no bit for descriptors from `FD_SETSIZE` on:
a larger number that is registered is looked up behind the end of a set in the
same pass.
-/

namespace Canvasback

open Runs Picoev

/-- An event, and whether the client its callback writes to is gone. -/
structure Moment where
  event : Event
  gone : Bool

namespace Server

/-- An `fd_set` has a bit for this descriptor. -/
def InSet (fd : Fd) : Prop := fd < fdSetSize

instance (fd : Fd) : Decidable (InSet fd) := inferInstanceAs (Decidable (_ < _))

/-- Something was written from the one state to the other. -/
def wrote (s s' : Server) : Bool := (s'.log.drop s.log.length).any fun e => e.act.isWrite

/-- The number that came into use with the event is registered, and there is no
bit for it. -/
def Beyond (s' : Server) : Event → Prop
  | .accept newfd => s'.fds newfd ≠ none ∧ ¬ InSet newfd
  | .readable _ _ _ db => s'.fds db.sock ≠ none ∧ ¬ InSet db.sock
  | .reply _ _ => False

instance (s' : Server) : DecidablePred s'.Beyond
  | .accept _ => inferInstanceAs (Decidable (_ ∧ _))
  | .readable .. => inferInstanceAs (Decidable (_ ∧ _))
  | .reply .. => inferInstanceAs (Decidable False)

section
variable (scale : Scale) (junk : Nat → UInt8) (fuel : Nat)

/-- What becomes of the process. What the callback runs into by itself is put
before the signal its writes raise. -/
def happens (s : Server) (m : Moment) : Except Stop Server := do
  let s' ← s.step scale junk fuel m.event
  if m.gone ∧ s.wrote s' then .error .sigpipe
  else if s'.Beyond m.event then .error .badPointer
  else .ok s'

end

end Server

/-- The number that comes into use with the event has a bit. -/
def Event.InSet : Event → Prop
  | .accept newfd => Server.InSet newfd
  | .readable _ _ _ db => Server.InSet db.sock
  | .reply _ _ => True

/-- The process as long as the system has numbers for it that have a bit. -/
def process (scale : Scale) (junk : Nat → UInt8) (fuel : Nat) : System Server Moment Stop where
  enabled s m := s.Enabled m.event ∧ m.event.InSet
  step := Server.happens scale junk fuel

/-- Everything registered has a bit. -/
def Server.Narrow (s : Server) : Prop := ∀ fd, s.fds fd ≠ none → Server.InSet fd

namespace Server

section
variable {s s' : Server} {m : Moment} {scale : Scale} {junk : Nat → UInt8} {fuel : Nat}
  {newfd fd : Fd} {db : Libpq} {r : Read} {behind : List UInt8} {log : List Entry}
  {listenSock : Fd}

theorem wrote_eq (h : s'.log = s.log ++ log) :
    s.wrote s' = log.any fun e => e.act.isWrite := by
  rw [wrote, h, List.drop_left]

theorem wrote_trace {who : Actor} {conn db : Option File} {ws : List (List UInt8)}
    (ht : Trace who conn db ws log) (hl : s'.log = s.log ++ log) :
    s.wrote s' = (conn.isSome && !ws.isEmpty) := by
  rw [wrote_eq hl, ht.wrote]

theorem happens_ok (hs : s.step scale junk fuel m.event = .ok s')
    (hg : m.gone = true → s.wrote s' = false) (hb : ¬ s'.Beyond m.event) :
    s.happens scale junk fuel m = .ok s' := by
  have hgone : ¬ (m.gone ∧ s.wrote s') := by
    rintro ⟨hgone, hw⟩
    rw [hg hgone] at hw
    cases hw
  simp only [happens, hs, bind, Except.bind, if_neg hgone, if_neg hb]

/-- What the process does, the server does, and the system has nothing to
object. -/
theorem happens_inv (h : s.happens scale junk fuel m = .ok s') :
    s.step scale junk fuel m.event = .ok s' ∧ (m.gone = true → s.wrote s' = false) ∧
      ¬ s'.Beyond m.event := by
  obtain ⟨t, hs, h⟩ := bind_eq_ok.mp h
  split at h
  · cases h
  · rename_i hgone
    split at h
    · cases h
    · rename_i hb
      cases h
      refine ⟨hs, fun hg => ?_, hb⟩
      rw [← Bool.not_eq_true]
      exact fun hw => hgone ⟨hg, hw⟩

theorem not_beyond (h : m.event.InSet) : ¬ s'.Beyond m.event := by
  intro hb
  cases he : m.event with
  | accept newfd =>
    rw [he] at h hb
    exact hb.2 h
  | readable fd r behind db =>
    rw [he] at h hb
    exact hb.2 h
  | reply fd rows =>
    rw [he] at hb
    exact hb

/-- A state of the process is a state of the server. -/
theorem reachable_of_process
    (h : Reachable (process scale junk fuel) (Server.init listenSock) s) :
    Reachable (server scale junk fuel) (Server.init listenSock) s := by
  induction h with
  | refl => exact .refl
  | step _ he hs ih => exact ih.step he.1 (happens_inv hs).1

theorem Narrow.step {e : Event} (h : s.Narrow) (hs : s.Sound) (he : s.Enabled e) (hin : e.InSet)
    (hstep : s.step scale junk fuel e = .ok s') : s'.Narrow := by
  intro d hd
  cases e with
  | accept newfd =>
    rcases acceptCb_inv hstep with ⟨-, rfl⟩ | ⟨-, -, rfl⟩
    · exact h d hd
    · rw [accepted_fds] at hd
      split at hd
      · rename_i hnew
        exact hnew ▸ hin
      · exact h d hd
  | readable fd r behind db =>
    simp only [Server.step] at hstep
    rcases readCb_inv hstep with hv | ⟨hv, hr, hf⟩ | ⟨n, hv, hdb, hr, hf⟩
    · rw [readCb_keep hv, Except.ok.injEq] at hstep
      subst hstep
      exact h d hd
    · obtain ⟨log, hok, -⟩ := readCb_close db hv hr hf
      rw [hok, Except.ok.injEq] at hstep
      subst hstep
      rw [hungUp_fds] at hd
      split at hd
      · exact absurd rfl hd
      · exact h d hd
    · obtain ⟨log, hok, -⟩ := readCb_query s fd hv hdb hr hf
      rw [hok, Except.ok.injEq] at hstep
      subst hstep
      rw [asked_fds] at hd
      split at hd
      · rename_i hnew
        exact hnew ▸ hin
      · exact h d hd
  | reply fd rows =>
    obtain ⟨-, p, hp⟩ := he
    simp only [Server.step, hp, dbBinCb] at hstep
    obtain ⟨c, writes, log, -, -, rfl, -⟩ := hs.fmtResBin_inv hstep
    rw [answered_fds] at hd
    split at hd
    · exact absurd rfl hd
    · split at hd
      · exact absurd rfl hd
      · exact h d hd

theorem narrow_of_process (hr : InRange listenSock) (hin : InSet listenSock)
    (h : Reachable (process scale junk fuel) (Server.init listenSock) s) : s.Narrow := by
  induction h with
  | refl =>
    intro d hd
    simp only [Server.init, Function.update_apply] at hd
    split at hd
    · rename_i hnew
      exact hnew ▸ hin
    · exact absurd rfl hd
  | step h he hs ih =>
    exact ih.step (sound_of_reachable hr (reachable_of_process h)) he.1 he.2 (happens_inv hs).1

end

end Server

end Canvasback
