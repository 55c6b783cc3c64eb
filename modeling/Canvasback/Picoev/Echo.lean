import Canvasback.Picoev.Select

/-!
# The echo server

picoev_echo.c, a program on picoev that uses timeouts: what a connection sends
comes back to it, and a connection that has been silent for `TIMEOUT_SECS` is
closed. Connections are numbered as they come, which the program does not see.
-/

namespace Canvasback.Picoev.Echo

open Runs

/-- `MAX_FDS`. -/
def maxFds : Nat := 1024

/-- `TIMEOUT_SECS`. -/
def timeoutSecs : Int := 10

inductive Handler where
  | acceptCallback
  | rwCallback
  deriving DecidableEq, Repr

/-- What an open descriptor stands for. -/
inductive Socket where
  | listen
  | conn (id : Nat)
  deriving DecidableEq, Repr

/-- What `read` returns: bytes, 0, -1 with `EAGAIN` or `EWOULDBLOCK`, or -1. -/
inductive Input where
  | data (buf : List UInt8)
  | closed
  | again
  | error
  deriving DecidableEq, Repr

/-- What comes of `write`: so many bytes are taken, it returns -1, or the client
is gone and it raises SIGPIPE. -/
inductive Output where
  | took (n : Nat)
  | failed
  | broken
  deriving DecidableEq, Repr

/-- What the system has for a descriptor: the number `accept` gives, if any,
what `read` returns, what comes of `write`. -/
structure Answer where
  newfd : Option Nat
  input : Input
  output : Output
  deriving DecidableEq, Repr

/-- The number is one picoev has room for, and no write ends the program. -/
def Answer.Tame (answer : Answer) : Prop :=
  (∀ n, answer.newfd = some n → n < maxFds) ∧ answer.output ≠ .broken

/-- The open descriptors, and what went over each connection and when it was
last active. -/
structure World where
  files : Nat → Option Socket
  nextConn : Nat
  received : Nat → List UInt8
  sent : Nat → List UInt8
  active : Nat → Int

abbrev Server := Loop Handler World

section
variable (l : Server) (fd : Nat)

def close : Server :=
  { l with world := { l.world with files := Function.update l.world.files fd none } }

/-- `close_conn`. -/
def closeConn : Except Fault Server := do
  let l ← l.del select fd
  .ok (close l fd)

/-- `accept`; a number in use is not given out. -/
def accept (newfd : Option Nat) : Option (Nat × Server) :=
  match newfd with
  | none => none
  | some n =>
    if l.world.files n = none then
      some (n, { l with world := { l.world with
        files := Function.update l.world.files n (some (.conn l.world.nextConn))
        nextConn := l.world.nextConn + 1
        active := Function.update l.world.active l.world.nextConn l.now } })
    else none

/-- The connection of a descriptor. -/
def connAt : Nat :=
  match l.world.files fd with
  | some (.conn id) => id
  | _ => l.world.nextConn

def heard : Server :=
  { l with world := { l.world with
    active := Function.update l.world.active (connAt l fd) l.now } }

/-- `read` of these bytes and `write` of them, of which so many are taken. -/
def exchange (buf : List UInt8) (took : Nat) : Server :=
  let id := connAt l fd
  { l with world := { l.world with
    received := Function.update l.world.received id (l.world.received id ++ buf)
    sent := Function.update l.world.sent id (l.world.sent id ++ buf.take took) } }

/-- `accept_callback`. -/
def acceptCallback (answer : Answer) : Except Fault Server :=
  match accept l answer.newfd with
  | none => .ok l
  | some (newfd, l) => l.add select newfd ⟨true, false⟩ timeoutSecs .rwCallback

/-- `rw_callback`. -/
def rwCallback (answer : Answer) (revents : Revents) : Except Fault Server :=
  match revents with
  | .timeout => closeConn l fd
  | .io events =>
    if events.read then do
      let l ← l.setTimeout fd timeoutSecs
      let l := heard l fd
      match answer.input with
      | .closed => closeConn l fd
      | .again => .ok l
      | .error => closeConn l fd
      | .data buf =>
        match answer.output with
        | .took n =>
          let l := exchange l fd buf n
          if n ≠ buf.length then closeConn l fd else .ok l
        | .failed => closeConn (exchange l fd buf 0) fd
        | .broken => .error .program
    else .ok l

end

def call (answers : Nat → Answer) (handler : Handler) (fd : Nat) (revents : Revents) (l : Server) :
    Except Fault Server :=
  match handler with
  | .acceptCallback => acceptCallback l (answers fd)
  | .rwCallback => rwCallback l fd (answers fd) revents

/-- `main`, up to its loop. -/
def start (listenSock : Nat) (time : Int) : Except Fault Server :=
  let world : World :=
    ⟨Function.update (fun _ => none) listenSock (some .listen), 0, fun _ => [], fun _ => [],
      fun _ => time⟩
  (Loop.create maxFds 60 time world).add select listenSock ⟨true, false⟩ 0 .acceptCallback

/-- The loop of `main`, as long as the system's answers are tame. -/
def echo : System Server (Wake (Nat → Events) × (Nat → Answer)) Fault :=
  Loop.turns (fun answers => ∀ fd, (answers fd).Tame) call 10 timeoutSecs

-- ---------------------------------------------------------------------------
-- What holds between callbacks
-- ---------------------------------------------------------------------------

/-- A connection as it is while it is open. -/
structure Live (l : Server) (fd id : Nat) : Prop where
  known : id < l.world.nextConn
  callback : (l.fds fd).callback = some .rwCallback
  asks : (l.fds fd).events = ⟨true, false⟩
  timed : (l.fds fd).timeoutIdx < vecSize
  deadline : (l.fds fd).deadline = l.world.active id + timeoutSecs
  echoed : l.world.sent id = l.world.received id

/-- The table is that of the open descriptors, and what was sent is what was
received, as far as it was sent. -/
structure Tidy (listenSock : Nat) (l : Server) : Prop where
  maxFd : l.maxFd = maxFds
  loopId : l.loopId ≠ 0
  resolution : l.resolution = 1
  free : l.world.files fd = none → (l.fds fd).loopId = 0
  belongs : l.world.files fd ≠ none → l.Belongs fd
  range : l.world.files fd ≠ none → fd < maxFds
  listening : l.world.files fd = some .listen ↔ fd = listenSock
  listen : (l.fds listenSock).callback = some .acceptCallback ∧
    (l.fds listenSock).events = ⟨true, false⟩ ∧ (l.fds listenSock).timeoutIdx = unused
  live : l.world.files fd = some (.conn n) → Live l fd n
  distinct : l.world.files fd = some (.conn n) → l.world.files d = some (.conn n) → d = fd
  sent : l.world.sent n <+: l.world.received n
  new : l.world.nextConn ≤ n → l.world.sent n = [] ∧ l.world.received n = []

/-- From one state to another nothing has changed but for a descriptor and a
connection. -/
structure Elsewhere (fd k : Nat) (l l' : Server) : Prop where
  maxFd : l'.maxFd = l.maxFd
  loopId : l'.loopId = l.loopId
  resolution : l'.resolution = l.resolution
  fds : d ≠ fd → l'.fds d = l.fds d
  files : d ≠ fd → l'.world.files d = l.world.files d
  active : n ≠ k → l'.world.active n = l.world.active n
  sent : n ≠ k → l'.world.sent n = l.world.sent n
  received : n ≠ k → l'.world.received n = l.world.received n
  more : l.world.nextConn ≤ l'.world.nextConn

section
variable {l l' : Server} {listenSock fd d k n : Nat} {answer : Answer}

theorem Elsewhere.trans (h : Elsewhere fd k l l') (h' : Elsewhere fd k l' l'') :
    Elsewhere fd k l l'' :=
  ⟨h'.maxFd.trans h.maxFd, h'.loopId.trans h.loopId, h'.resolution.trans h.resolution,
    fun hd => (h'.fds hd).trans (h.fds hd),
    fun hd => (h'.files hd).trans (h.files hd), fun hn => (h'.active hn).trans (h.active hn),
    fun hn => (h'.sent hn).trans (h.sent hn), fun hn => (h'.received hn).trans (h.received hn),
    h.more.trans h'.more⟩

theorem Live.congr (h : Live l fd n) (hf : l'.fds fd = l.fds fd)
    (ha : l'.world.active n = l.world.active n) (hs : l'.world.sent n = l.world.sent n)
    (hr : l'.world.received n = l.world.received n)
    (hm : l.world.nextConn ≤ l'.world.nextConn) : Live l' fd n := by
  refine ⟨h.known.trans_le hm, ?_, ?_, ?_, ?_, ?_⟩
  · rw [hf]
    exact h.callback
  · rw [hf]
    exact h.asks
  · rw [hf]
    exact h.timed
  · rw [hf, ha]
    exact h.deadline
  · rw [hs, hr]
    exact h.echoed

/-- What a callback has to leave of its own descriptor and connection. -/
structure Settled (l : Server) (fd k : Nat) : Prop where
  file : l.world.files fd = none ∧ (l.fds fd).loopId = 0 ∨
    l.world.files fd = some (.conn k) ∧ l.Belongs fd ∧ fd < maxFds ∧ Live l fd k
  sent : l.world.sent k <+: l.world.received k
  known : k < l.world.nextConn

theorem Tidy.step (h : Tidy listenSock l) (he : Elsewhere fd k l l') (hs : Settled l' fd k)
    (hne : fd ≠ listenSock) (hown : ∀ d, l.world.files d = some (.conn k) → d = fd)
    (hnew : ∀ n, l'.world.nextConn ≤ n → l.world.nextConn ≤ n) : Tidy listenSock l' := by
  have hbel {d : Nat} (hd : d ≠ fd) : l'.Belongs d ↔ l.Belongs d := by
    unfold Loop.Belongs
    rw [he.fds hd, he.loopId]
  refine ⟨he.maxFd.trans h.maxFd, ?_, he.resolution.trans h.resolution, fun {d} hf => ?_,
    fun {d} hf => ?_, fun {d} hf => ?_, fun {d} => ?_, ?_, fun {d n} hf => ?_,
    fun {d n d'} hf hf' => ?_, fun {n} => ?_, fun {n} hn => ?_⟩
  · rw [he.loopId]
    exact h.loopId
  · by_cases hd : d = fd
    · subst hd
      rcases hs.file with hs | hs
      · exact hs.2
      · rw [hs.1] at hf
        cases hf
    · rw [he.files hd] at hf
      rw [he.fds hd]
      exact h.free hf
  · by_cases hd : d = fd
    · subst hd
      rcases hs.file with hs | hs
      · exact absurd hs.1 hf
      · exact hs.2.1
    · rw [he.files hd] at hf
      exact (hbel hd).mpr (h.belongs hf)
  · by_cases hd : d = fd
    · subst hd
      rcases hs.file with hs | hs
      · exact absurd hs.1 hf
      · exact hs.2.2.1
    · rw [he.files hd] at hf
      exact h.range hf
  · by_cases hd : d = fd
    · subst hd
      refine ⟨fun hf => ?_, fun heq => absurd heq hne⟩
      rcases hs.file with hs | hs
      all_goals
        rw [hs.1] at hf
        cases hf
    · rw [he.files hd]
      exact h.listening
  · rw [he.fds hne.symm]
    exact h.listen
  · by_cases hd : d = fd
    · subst hd
      rcases hs.file with hs | hs
      · rw [hs.1] at hf
        cases hf
      · rw [hs.1] at hf
        cases hf
        exact hs.2.2.2
    · rw [he.files hd] at hf
      have hn : n ≠ k := by
        rintro rfl
        exact hd (hown d hf)
      exact (h.live hf).congr (he.fds hd) (he.active hn) (he.sent hn) (he.received hn) he.more
  · have hk {e : Nat} (hf : l'.world.files e = some (.conn n)) (hn : n = k) : e = fd := by
      by_contra hd
      rw [he.files hd, hn] at hf
      exact hd (hown e hf)
    by_cases hn : n = k
    · rw [hk hf hn, hk hf' hn]
    · have hold {e : Nat} (hf : l'.world.files e = some (.conn n)) :
          l.world.files e = some (.conn n) := by
        by_cases hd : e = fd
        · subst hd
          rcases hs.file with hs | hs
          all_goals
            rw [hs.1] at hf
            cases hf
          exact absurd rfl hn
        · rwa [he.files hd] at hf
      exact h.distinct (hold hf) (hold hf')
  · by_cases hn : n = k
    · rw [hn]
      exact hs.sent
    · rw [he.sent hn, he.received hn]
      exact h.sent
  · have hne : n ≠ k := by
      have := hs.known
      omega
    rw [he.sent hne, he.received hne]
    exact h.new (hnew n hn)

/-- Where picoev does something of its own. -/
theorem Tidy.congr (h : Tidy listenSock l) (hm : l'.maxFd = l.maxFd) (hid : l'.loopId = l.loopId)
    (hres : l'.resolution = l.resolution) (hf : l'.fds = l.fds) (hw : l'.world = l.world) :
    Tidy listenSock l' := by
  have hbel (d : Nat) : l'.Belongs d ↔ l.Belongs d := by
    unfold Loop.Belongs
    rw [hf, hid]
  refine ⟨hm.trans h.maxFd, hid ▸ h.loopId, hres.trans h.resolution, ?_, ?_, ?_, ?_, ?_,
    fun {d n} hfile => ?_, ?_, ?_, ?_⟩
  case refine_6 =>
    rw [hw] at hfile
    exact (h.live hfile).congr (by rw [hf]) (by rw [hw]) (by rw [hw]) (by rw [hw]) (by rw [hw])
  all_goals
    simp only [hf, hw, hbel]
  · exact h.free
  · exact h.belongs
  · exact h.range
  · exact h.listening
  · exact h.listen
  · exact h.distinct
  · exact h.sent
  · exact h.new

-- ---------------------------------------------------------------------------
-- The callbacks
-- ---------------------------------------------------------------------------

theorem closeConn_eq (hmax : fd < l.maxFd) (hb : l.Belongs fd) :
    closeConn l fd = .ok (close (l.deleted fd) fd) := by
  rw [closeConn, Loop.del_select hmax hb]
  rfl

theorem closed_world (l : Server) (fd : Nat) : (close (l.deleted fd) fd).world =
    { l.world with files := Function.update l.world.files fd none } := by
  rw [close, Loop.deleted_same.2]

theorem closed_elsewhere (fd k : Nat) (l : Server) :
    Elsewhere fd k l (close (l.deleted fd) fd) := by
  have hw := closed_world l fd
  have hs : l.Same (l.deleted fd) := Loop.deleted_same.1
  refine ⟨hs.maxFd, hs.loopId, hs.resolution, fun {d} hd => ?_, fun {d} hd => ?_,
    fun _ => ?_, fun _ => ?_, fun _ => ?_, ?_⟩
  · show (l.deleted fd).fds d = l.fds d
    rw [Loop.deleted_fds, if_neg hd]
  · rw [hw]
    exact Function.update_of_ne hd _ _
  all_goals rw [hw]

theorem closed_settled (hk : k < l.world.nextConn) (hs : l.world.sent k <+: l.world.received k) :
    Settled (close (l.deleted fd) fd) fd k := by
  have hw := closed_world l fd
  refine ⟨.inl ⟨?_, ?_⟩, ?_, ?_⟩
  · rw [hw]
    exact Function.update_self ..
  · show ((l.deleted fd).fds fd).loopId = 0
    rw [Loop.deleted_fds, if_pos rfl]
  · rw [hw]
    exact hs
  · rw [hw]
    exact hk

/-- The connection of a callback that reads. -/
theorem Tidy.conn (h : Tidy listenSock l) (hb : l.Belongs fd)
    (hc : (l.fds fd).callback = some .rwCallback) :
    ∃ k, l.world.files fd = some (.conn k) := by
  cases hf : l.world.files fd with
  | none => exact absurd ((hb.symm.trans (h.free hf))) h.loopId
  | some socket =>
    cases socket with
    | listen =>
      rw [h.listening.mp hf, h.listen.1] at hc
      cases hc
    | conn k => exact ⟨k, rfl⟩

/-- The listening socket has no timeout. -/
theorem Tidy.conn_of_firing {handler : Handler} (h : Tidy listenSock l) (hf : l.Firing fd handler) :
    ∃ k, l.world.files fd = some (.conn k) := by
  cases handler with
  | rwCallback => exact h.conn hf.armed.1 hf.callback
  | acceptCallback =>
    have hne : unused ≠ l.baseIdx := by
      have := hf.core.base
      simp only [vecSize, unused] at *
      omega
    cases hfile : l.world.files fd with
    | none => exact absurd (hf.armed.1.symm.trans (h.free hfile)) h.loopId
    | some socket =>
      cases socket with
      | listen =>
        have hidle := h.listen.2.2
        rw [← h.listening.mp hfile] at hidle
        exact absurd (hidle.symm.trans hf.armed.2) hne
      | conn k => exact ⟨k, rfl⟩

theorem Tidy.ne_listen (h : Tidy listenSock l) (hf : l.world.files fd = some (.conn k)) :
    fd ≠ listenSock := by
  intro he
  rw [h.listening.mpr he] at hf
  cases hf

/-- picoev_select has a bit for whatever is registered. -/
theorem Tidy.narrow (h : Tidy listenSock l) : l.Narrow := by
  intro fd hb
  refine h.range fun hf => ?_
  exact h.loopId (hb.symm.trans (h.free hf))

theorem Tidy.close (h : Tidy listenSock l) (hf : l.world.files fd = some (.conn k))
    (he : Elsewhere fd k l l') (hb : l'.Belongs fd)
    (hs : l'.world.sent k <+: l'.world.received k) (hm : l'.world.nextConn = l.world.nextConn) :
    ∃ l'', closeConn l' fd = .ok l'' ∧ Tidy listenSock l'' := by
  have hopen : l.world.files fd ≠ none := by simp [hf]
  have hrange := h.range hopen
  have hknown := (h.live hf).known
  refine ⟨_, closeConn_eq (by rw [he.maxFd, h.maxFd]; exact hrange) hb, ?_⟩
  refine h.step (he.trans (closed_elsewhere fd k l')) (closed_settled (by omega) hs)
    (h.ne_listen hf) (fun d hd => h.distinct hf hd) fun n hn => ?_
  rw [closed_world] at hn
  exact hm ▸ hn

theorem rwCallback_timeout (answer : Answer) (h : Tidy listenSock l) (hb : l.Belongs fd)
    (hc : (l.fds fd).callback = some .rwCallback) (he : ∀ k, Elsewhere fd k l l')
    (hb' : l'.Belongs fd) (hw : l'.world = l.world) :
    ∃ l'', rwCallback l' fd answer .timeout = .ok l'' ∧ Tidy listenSock l'' := by
  obtain ⟨k, hf⟩ := h.conn hb hc
  exact h.close hf (he k) hb' (by rw [hw]; exact h.sent) (by rw [hw])

/-- A connection after `picoev_set_timeout`. -/
def timed (l : Server) (fd : Nat) : Server := heard (l.retimed fd timeoutSecs) fd

theorem timed_world (hf : l.world.files fd = some (.conn k)) : (timed l fd).world =
    { l.world with active := Function.update l.world.active k l.now } := by
  have hnow := (Loop.retimed_same l fd timeoutSecs).now
  simp only [timed, heard, connAt, Loop.retimed_world, hf, hnow]

theorem timed_elsewhere (hf : l.world.files fd = some (.conn k)) :
    Elsewhere fd k l (timed l fd) := by
  have hs := Loop.retimed_same l fd timeoutSecs
  have hw := timed_world hf
  refine ⟨hs.maxFd, hs.loopId, hs.resolution, fun {d} hd => ?_, fun _ => ?_, fun hn => ?_,
    fun _ => ?_, fun _ => ?_, ?_⟩
  · show (l.retimed fd timeoutSecs).fds d = l.fds d
    rw [Loop.retimed_fds, if_neg hd]
  · rw [hw]
  · rw [hw]
    exact Function.update_of_ne hn _ _
  all_goals rw [hw]

theorem timed_live (h : Live l fd k) (hf : l.world.files fd = some (.conn k)) :
    Live (timed l fd) fd k := by
  have hfds : (timed l fd).fds fd = { l.fds fd with
      timeoutIdx := l.slotOf timeoutSecs, deadline := l.now + timeoutSecs } := by
    show (l.retimed fd timeoutSecs).fds fd = _
    rw [Loop.retimed_fds, if_pos rfl, if_neg (by decide)]
  have hw := timed_world hf
  refine ⟨?_, ?_, ?_, ?_, ?_, ?_⟩
  · rw [hw]
    exact h.known
  · rw [hfds]
    exact h.callback
  · rw [hfds]
    exact h.asks
  · rw [hfds]
    exact Loop.slotOf_lt
  · rw [hfds, hw]
    show l.now + timeoutSecs = Function.update l.world.active k l.now k + timeoutSecs
    rw [Function.update_self]
  · rw [hw]
    exact h.echoed

theorem timed_belongs : (timed l fd).Belongs d ↔ l.Belongs d := by
  show (l.retimed fd timeoutSecs).Belongs d ↔ l.Belongs d
  exact Loop.retimed_belongs

theorem exchange_world (hf : l.world.files fd = some (.conn k)) (buf : List UInt8)
    (took : Nat) : (exchange l fd buf took).world =
      { l.world with
        received := Function.update l.world.received k (l.world.received k ++ buf)
        sent := Function.update l.world.sent k (l.world.sent k ++ buf.take took) } := by
  simp only [exchange, connAt, hf]

theorem exchange_elsewhere (hf : l.world.files fd = some (.conn k)) (buf : List UInt8)
    (took : Nat) : Elsewhere fd k l (exchange l fd buf took) := by
  have hw := exchange_world hf buf took
  refine ⟨rfl, rfl, rfl, fun _ => rfl, fun _ => ?_, fun _ => ?_, fun hn => ?_, fun hn => ?_, ?_⟩
  · rw [hw]
  · rw [hw]
  · rw [hw]
    exact Function.update_of_ne hn _ _
  · rw [hw]
    exact Function.update_of_ne hn _ _
  · rw [hw]

/-- What comes back is what came, unless not all of it could be sent. -/
theorem exchange_sent (h : Live l fd k) (hf : l.world.files fd = some (.conn k)) (buf : List UInt8)
    (took : Nat) :
    (exchange l fd buf took).world.sent k <+: (exchange l fd buf took).world.received k ∧
      (took = buf.length → Live (exchange l fd buf took) fd k) := by
  have hw := exchange_world hf buf took
  have hsent : (exchange l fd buf took).world.sent k = l.world.received k ++ buf.take took := by
    rw [hw, ← h.echoed]
    exact Function.update_self ..
  have hreceived : (exchange l fd buf took).world.received k = l.world.received k ++ buf := by
    rw [hw]
    exact Function.update_self ..
  rw [hsent, hreceived]
  refine ⟨List.prefix_append_right_inj _ |>.mpr (List.take_prefix _ _), fun hall => ?_⟩
  refine ⟨?_, h.callback, h.asks, h.timed, ?_, ?_⟩
  · rw [hw]
    exact h.known
  · rw [hw]
    exact h.deadline
  · rw [hsent, hreceived, hall, List.take_length]

theorem rwCallback_io (ht : answer.Tame) (h : Tidy listenSock l) (hb : l.Belongs fd)
    (hc : (l.fds fd).callback = some .rwCallback) (events : Events) :
    ∃ l', rwCallback l fd answer (.io events) = .ok l' ∧ Tidy listenSock l' := by
  obtain ⟨k, hf⟩ := h.conn hb hc
  have hopen : l.world.files fd ≠ none := by simp [hf]
  have hrange := h.range hopen
  have hmax : fd < l.maxFd := h.maxFd ▸ hrange
  unfold rwCallback
  simp only
  split
  · have hset : l.setTimeout fd timeoutSecs = .ok (l.retimed fd timeoutSecs) :=
      Loop.setTimeout_ok.mpr ⟨⟨hmax, hb⟩, rfl⟩
    rw [hset]
    show ∃ l', (match answer.input with
      | .closed => closeConn (timed l fd) fd
      | .again => .ok (timed l fd)
      | .error => closeConn (timed l fd) fd
      | .data buf =>
        match answer.output with
        | .took n =>
          if n ≠ buf.length then closeConn (exchange (timed l fd) fd buf n) fd
          else .ok (exchange (timed l fd) fd buf n)
        | .failed => closeConn (exchange (timed l fd) fd buf 0) fd
        | .broken => .error .program) = .ok l' ∧ Tidy listenSock l'
    have he := timed_elsewhere hf
    have hw := timed_world hf
    have hlive := timed_live (h.live hf) hf
    have hb' : (timed l fd).Belongs fd := timed_belongs.mpr hb
    have hf' : (timed l fd).world.files fd = some (.conn k) := by
      rw [hw]
      exact hf
    have hown (d : Nat) (hd : l.world.files d = some (.conn k)) : d = fd := h.distinct hf hd
    have hknown := (h.live hf).known
    have hsent : (timed l fd).world.sent k <+: (timed l fd).world.received k := by
      rw [hw]
      exact h.sent
    have hmore : (timed l fd).world.nextConn = l.world.nextConn := by rw [hw]
    have hne := h.ne_listen hf
    -- whatever is taken of the bytes
    have hexchange (buf : List UInt8) (took : Nat) :
        (∃ l', closeConn (exchange (timed l fd) fd buf took) fd = .ok l' ∧ Tidy listenSock l') ∧
          (took = buf.length → Tidy listenSock (exchange (timed l fd) fd buf took)) := by
      have he' := he.trans (exchange_elsewhere hf' buf took)
      have hw' := exchange_world hf' buf took
      have hmore' : (exchange (timed l fd) fd buf took).world.nextConn = l.world.nextConn := by
        rw [hw']
        exact hmore
      obtain ⟨hsent', hlive'⟩ := exchange_sent hlive hf' buf took
      refine ⟨h.close hf he' hb' hsent' hmore', fun hall => ?_⟩
      have hlive' := hlive' hall
      refine h.step he' ⟨.inr ⟨?_, hb', hrange, hlive'⟩, hsent', hlive'.known⟩ hne hown ?_
      · rw [hw']
        exact hf'
      · rintro n hn
        exact hmore' ▸ hn
    split
    · exact h.close hf he hb' hsent hmore
    · refine ⟨_, rfl, h.step he ⟨.inr ⟨hf', hb', hrange, hlive⟩, hsent, hlive.known⟩ hne hown ?_⟩
      rintro n hn
      exact hmore ▸ hn
    · exact h.close hf he hb' hsent hmore
    · rename_i buf _
      split
      · rename_i took _
        split
        · exact (hexchange buf took).1
        · rename_i hall
          exact ⟨_, rfl, (hexchange buf took).2 (by simpa using hall)⟩
      · exact (hexchange buf 0).1
      · rename_i hbroken
        exact absurd hbroken ht.2
  · exact ⟨l, rfl, h⟩

/-- A connection has come. -/
def opened (l : Server) (newfd : Nat) : Server :=
  { l with world := { l.world with
    files := Function.update l.world.files newfd (some (.conn l.world.nextConn))
    nextConn := l.world.nextConn + 1
    active := Function.update l.world.active l.world.nextConn l.now } }

/-- A connection in the table. -/
def admitted (l : Server) (fd : Nat) : Server :=
  (opened l fd).added fd ⟨true, false⟩ timeoutSecs .rwCallback

theorem admitted_world : (admitted l fd).world = (opened l fd).world :=
  (Loop.added_same (opened l fd) fd ⟨true, false⟩ timeoutSecs .rwCallback).2

theorem admitted_elsewhere (l : Server) (fd : Nat) :
    Elsewhere fd l.world.nextConn l (admitted l fd) := by
  have hs := (Loop.added_same (opened l fd) fd ⟨true, false⟩ timeoutSecs .rwCallback).1
  refine ⟨hs.maxFd, hs.loopId, hs.resolution, fun {d} hd => ?_, fun hd => ?_, fun hn => ?_,
    fun _ => ?_, fun _ => ?_, ?_⟩
  · rw [admitted, Loop.added_fds, if_neg hd]
    rfl
  all_goals rw [admitted_world]
  · exact Function.update_of_ne hd _ _
  · exact Function.update_of_ne hn _ _
  · rfl
  · rfl
  · exact Nat.le_succ _

theorem admitted_settled (h : Tidy listenSock l) (hrange : fd < maxFds) :
    Settled (admitted l fd) fd l.world.nextConn := by
  have hs := (Loop.added_same (opened l fd) fd ⟨true, false⟩ timeoutSecs .rwCallback).1
  have hself := Loop.added_fds (opened l fd) fd ⟨true, false⟩ timeoutSecs .rwCallback fd
  rw [if_pos rfl, if_neg (by decide), if_neg (by decide)] at hself
  have hnew := h.new (n := l.world.nextConn) le_rfl
  refine ⟨.inr ⟨?_, ?_, hrange, ⟨?_, ?_, ?_, ?_, ?_, ?_⟩⟩, ?_, ?_⟩
  case refine_2 =>
    show ((admitted l fd).fds fd).loopId = _
    rw [admitted, hself]
    exact hs.loopId.symm
  case refine_4 => rw [admitted, hself]
  case refine_5 => rw [admitted, hself]
  case refine_6 =>
    rw [admitted, hself]
    exact Loop.slotOf_lt
  case refine_7 =>
    rw [admitted_world, admitted, hself]
    show l.now + timeoutSecs =
      Function.update l.world.active l.world.nextConn l.now l.world.nextConn + timeoutSecs
    rw [Function.update_self]
  all_goals rw [admitted_world]
  · exact Function.update_self ..
  · exact Nat.lt_succ_self _
  · exact hnew.1.trans hnew.2.symm
  · exact h.sent
  · exact Nat.lt_succ_self _

/-- A connection comes in on a number that is not in use. -/
theorem opened_added (h : Tidy listenSock l) (hfree : l.world.files fd = none)
    (hrange : fd < maxFds) :
    ∃ l', (opened l fd).add select fd ⟨true, false⟩ timeoutSecs .rwCallback = .ok l' ∧
      Tidy listenSock l' := by
  have hne : fd ≠ listenSock := by
    intro he
    rw [h.listening.mpr he] at hfree
    cases hfree
  refine ⟨admitted l fd, Loop.add_select (h.maxFd ▸ hrange) (h.free hfree), ?_⟩
  refine h.step (admitted_elsewhere l fd) (admitted_settled h hrange) hne
    (fun d hd => absurd (h.live hd).known (lt_irrefl _)) fun n hn => ?_
  rw [admitted_world] at hn
  exact (Nat.le_succ _).trans hn

theorem acceptCallback_io (ht : answer.Tame) (h : Tidy listenSock l) :
    ∃ l', acceptCallback l answer = .ok l' ∧ Tidy listenSock l' := by
  unfold acceptCallback accept
  cases hnewfd : answer.newfd with
  | none => exact ⟨l, rfl, h⟩
  | some newfd =>
    by_cases hfree : l.world.files newfd = none
    · simp only [hfree, if_true]
      exact opened_added h hfree (ht.1 newfd hnewfd)
    · simp only [hfree, if_false]
      exact ⟨l, rfl, h⟩

-- ---------------------------------------------------------------------------
-- The callbacks as picoev calls them
-- ---------------------------------------------------------------------------

theorem zero_le_timeoutSecs : 0 ≤ timeoutSecs := by decide

theorem closeConn_acts {kind : Loop.Call Handler → Prop} (hkind : kind (.del fd))
    (ha : Loop.Acts select timeoutSecs kind l l') (hc : closeConn l' fd = .ok l'') :
    Loop.Acts select timeoutSecs kind l l'' := by
  obtain ⟨l₁, hdel, hclose⟩ := bind_eq_ok.mp hc
  obtain rfl := Except.ok.inj hclose
  have hcall : (Loop.Call.del fd : Loop.Call Handler).run select l' = .ok l₁ := hdel
  exact .world (.call ha hkind ⟨le_rfl, zero_le_timeoutSecs⟩ hcall) _

/-- The callbacks ask for no more than `TIMEOUT_SECS` and end timeouts of their
own descriptors only. -/
theorem call_mannerly {answers : Nat → Answer} (ht : ∀ fd, (answers fd).Tame) :
    Loop.Mannerly select timeoutSecs (call answers) := by
  refine ⟨fun {handler fd revents l l'} hrun => ?_⟩
  cases handler with
  | acceptCallback =>
    have hrun : acceptCallback l (answers fd) = .ok l' := hrun
    unfold acceptCallback at hrun
    split at hrun
    · cases hrun
      exact .refl
    · rename_i newfd l₁ hacc
      obtain ⟨hl₁, hnewfd⟩ : l₁ = { l with world := l₁.world } ∧ newfd < maxFds := by
        unfold accept at hacc
        split at hacc
        · cases hacc
        · rename_i n hn
          split at hacc
          · cases hacc
            exact ⟨rfl, (ht fd).1 _ hn⟩
          · cases hacc
      have hcall : (Loop.Call.add newfd ⟨true, false⟩ timeoutSecs .rwCallback).run select l₁ =
          .ok l' := hrun
      rw [hl₁] at hcall
      exact .call (c := .add newfd ⟨true, false⟩ timeoutSecs .rwCallback) (.world .refl _)
        ⟨fun _ => trivial, hnewfd⟩ ⟨zero_le_timeoutSecs, le_rfl⟩ hcall
  | rwCallback =>
    have hrun : rwCallback l fd (answers fd) revents = .ok l' := hrun
    cases revents with
    | timeout => exact closeConn_acts ⟨fun _ => rfl, trivial⟩ .refl hrun
    | io events =>
      -- what is called for events is called for no timeout
      have hkind (c : Loop.Call Handler) (hc : c.InSet) :
          (Revents.io events = .timeout → c.About fd) ∧ c.InSet := ⟨Revents.noConfusion, hc⟩
      unfold rwCallback at hrun
      simp only at hrun
      split at hrun
      · obtain ⟨l₁, hset, hrun⟩ := bind_eq_ok.mp hrun
        have hcall : (Loop.Call.setTimeout fd timeoutSecs : Loop.Call Handler).run select l =
            .ok l₁ := hset
        have hacts : Loop.Acts select timeoutSecs
            (fun c : Loop.Call Handler => (Revents.io events = .timeout → c.About fd) ∧ c.InSet) l
            (heard l₁ fd) :=
          .world (.call (c := .setTimeout fd timeoutSecs) .refl
            (hkind (.setTimeout fd timeoutSecs) trivial)
            ⟨zero_le_timeoutSecs, le_rfl⟩ hcall) _
        split at hrun
        · exact closeConn_acts (hkind (.del fd) trivial) hacts hrun
        · cases hrun
          exact hacts
        · exact closeConn_acts (hkind (.del fd) trivial) hacts hrun
        · split at hrun
          · split at hrun
            · exact closeConn_acts (hkind (.del fd) trivial) (.world hacts _) hrun
            · cases hrun
              exact .world hacts _
          · exact closeConn_acts (hkind (.del fd) trivial) (.world hacts _) hrun
          · cases hrun
      · cases hrun
        exact .refl

theorem call_keeps {answers : Nat → Answer} (ht : ∀ fd, (answers fd).Tame) :
    Loop.Keeps select timeoutSecs (call answers) (Tidy listenSock) fun _ => False := by
  have hm := call_mannerly ht
  have hwheel : Loop.OffWheel (Tidy listenSock) :=
    ⟨fun h => h.congr rfl rfl rfl rfl rfl, fun h => h.congr rfl rfl rfl rfl rfl,
      fun h => h.congr rfl rfl rfl rfl rfl⟩
  refine ⟨hwheel, fun {l fd handler} h hf => ?_, fun _ h => h.congr rfl rfl rfl rfl rfl,
    Tidy.narrow, fun {l₀ ready fd l handler} _ _ h hb hc => ?_⟩
  rotate_left
  · refine ComesTo.and ?_ fun l' hrun => (hm.acts hrun).mono fun _ _ => trivial
    have hlog : Tidy listenSock (l.logged fd (.io (l₀.found ready fd))) :=
      h.congr rfl rfl rfl rfl rfl
    cases handler with
    | acceptCallback =>
      obtain ⟨l', hrun, h'⟩ := acceptCallback_io (ht fd) hlog
      show ComesTo (acceptCallback (l.logged fd _) (answers fd)) _ _
      rw [hrun]
      exact .ok h'
    | rwCallback =>
      obtain ⟨l', hrun, h'⟩ := rwCallback_io (ht fd) hlog hb hc (l₀.found ready fd)
      show ComesTo (rwCallback (l.logged fd (.io (l₀.found ready fd))) fd (answers fd)
        (.io (l₀.found ready fd))) _ _
      rw [hrun]
      exact .ok h'
  · refine ComesTo.and ?_ fun l' hrun => (hm.acts hrun).mono fun _ hc => hc.1 rfl
    cases handler with
    | acceptCallback =>
      obtain ⟨k, hfile⟩ := h.conn_of_firing hf
      have hrw := (h.live hfile).callback
      rw [hf.callback] at hrw
      cases hrw
    | rwCallback =>
      have he (k : Nat) : Elsewhere fd k l (l.taken fd) := by
        refine ⟨rfl, rfl, rfl, fun {d} hd => ?_, fun _ => rfl, fun _ => rfl, fun _ => rfl,
          fun _ => rfl, le_rfl⟩
        rw [Loop.taken_fds, if_neg hd]
      obtain ⟨l', hrun, h'⟩ := rwCallback_timeout (answers fd) h hf.armed.1 hf.callback he
        (Loop.taken_belongs.mpr hf.armed.1) rfl
      show ComesTo (rwCallback (l.taken fd) fd (answers fd) .timeout) _ _
      rw [hrun]
      exact .ok h'

-- ---------------------------------------------------------------------------
-- Runs
-- ---------------------------------------------------------------------------

/-- The loop before anything is in its table. -/
def blank (listenSock : Nat) (time : Int) : Server :=
  Loop.create maxFds 60 time
    ⟨Function.update (fun _ => none) listenSock (some .listen), 0, fun _ => [], fun _ => [],
      fun _ => time⟩

theorem start_ok (hmax : listenSock < maxFds) (time : Int) :
    start listenSock time =
        .ok ((blank listenSock time).added listenSock ⟨true, false⟩ 0 .acceptCallback) ∧
      ((blank listenSock time).added listenSock ⟨true, false⟩ 0 .acceptCallback).Ok ∧
      Tidy listenSock
        ((blank listenSock time).added listenSock ⟨true, false⟩ 0 .acceptCallback) := by
  have hadd : (blank listenSock time).add select listenSock ⟨true, false⟩ 0 .acceptCallback =
      .ok ((blank listenSock time).added listenSock ⟨true, false⟩ 0 .acceptCallback) :=
    Loop.add_select hmax rfl
  have hcall : (Loop.Call.add listenSock ⟨true, false⟩ 0 Handler.acceptCallback).run select
      (blank listenSock time) = _ := hadd
  refine ⟨hadd, Loop.Call.ok Loop.select_lawful (Loop.create_ok (by decide)) .zero hcall, ?_⟩
  obtain ⟨hs, hw⟩ := Loop.added_same (blank listenSock time) listenSock ⟨true, false⟩ 0
    .acceptCallback
  have hfds := Loop.added_fds (blank listenSock time) listenSock ⟨true, false⟩ 0 .acceptCallback
  have hfiles (fd : Nat) : (blank listenSock time).world.files fd =
      if fd = listenSock then some .listen else none := by
    show Function.update (fun _ => none) listenSock (some Socket.listen) fd = _
    exact Function.update_apply ..
  have hself := hfds listenSock
  rw [if_pos rfl, if_pos rfl, if_pos rfl] at hself
  refine ⟨hs.maxFd, ?_, ?_, fun {fd} hf => ?_, fun {fd} hf => ?_, fun {fd} hf => ?_,
    fun {fd} => ?_, ?_, fun {fd n} hf => ?_, fun {fd n d} hf => ?_, fun {n} => ?_, fun {n} _ => ?_⟩
  · rw [hs.loopId]
    exact Nat.one_ne_zero
  · rw [hs.resolution]
    rfl
  · rw [hw, hfiles] at hf
    have hne : fd ≠ listenSock := fun he => by simp [he] at hf
    rw [hfds, if_neg hne]
    rfl
  · rw [hw, hfiles] at hf
    have he : fd = listenSock := by
      by_contra hne
      simp [hne] at hf
    show ((Loop.added (blank listenSock time) listenSock _ _ _).fds fd).loopId = _
    rw [he, hself]
    exact hs.loopId.symm
  · rw [hw, hfiles] at hf
    have he : fd = listenSock := by
      by_contra hne
      simp [hne] at hf
    exact he ▸ hmax
  · rw [hw, hfiles]
    split
    · rename_i he
      exact iff_of_true rfl he
    · rename_i he
      exact iff_of_false (by simp) he
  · rw [hself]
    exact ⟨rfl, rfl, rfl⟩
  · rw [hw, hfiles] at hf
    split at hf <;> cases hf
  · rw [hw, hfiles] at hf
    split at hf <;> cases hf
  · rw [hw]
    exact List.prefix_rfl
  · rw [hw]
    exact ⟨rfl, rfl⟩

/-- What a turn leaves: what is open is registered as it was, and nothing else;
every connection has its timeout in the wheel. What came over a connection has
gone back, or a part of it if the connection is closed; who was timed out had
been silent for more than `TIMEOUT_SECS`, and none is left that has. -/
structure Served (listenSock : Nat) (wake : Wake (Nat → Events)) (l : Server) : Prop where
  table : ∀ fd, l.Belongs fd ↔ l.world.files fd ≠ none
  listening : ∀ fd, l.world.files fd = some .listen ↔ fd = listenSock
  accepts : (l.fds listenSock).callback = some .acceptCallback ∧
    (l.fds listenSock).events = ⟨true, false⟩
  reads : ∀ fd n, l.world.files fd = some (.conn n) →
    (l.fds fd).callback = some .rwCallback ∧ (l.fds fd).events = ⟨true, false⟩
  armed : ∀ fd n, l.world.files fd = some (.conn n) → ∃ slot < vecSize,
    l.Armed fd slot ∧ (l.rows slot).Mem fd ∧ (l.fds fd).deadline < l.due slot
  deadline : ∀ fd n, l.world.files fd = some (.conn n) →
    (l.fds fd).deadline = l.world.active n + timeoutSecs
  sent : ∀ n, l.world.sent n <+: l.world.received n
  echoed : ∀ fd n, l.world.files fd = some (.conn n) → l.world.sent n = l.world.received n
  heard : wake.ready ≠ none → ∀ fd n, l.world.files fd = some (.conn n) →
    l.now ≤ l.world.active n + timeoutSecs
  late : ∀ e ∈ l.log, e.revents = .timeout → e.deadline < e.time

/-- Whenever a turn comes to a timeout, it is that of a connection that has been
silent for more than `TIMEOUT_SECS`. -/
def Silent (wake : Wake (Nat → Events)) (answers : Nat → Answer) (l : Server) : Prop :=
  ∀ ready passed fd handler mid, wake.ready = some ready →
    (l.tick wake.before).pollOnce (call answers) ready = .ok passed →
    (passed.tick (wake.last 10)).Expires (call answers) fd mid → mid.Firing fd handler →
      ∃ n, mid.world.files fd = some (.conn n) ∧ mid.world.active n + timeoutSecs < mid.now

theorem Tidy.served (h : Tidy listenSock l) (hok : l.Ok) {wake : Wake (Nat → Events)}
    (hwaiting : wake.ready ≠ none → ∀ fd slot, slot < vecSize → l.Armed fd slot →
      l.now < (l.fds fd).deadline + l.resolution) : Served listenSock wake l := by
  have harmed (fd n : Nat) (hf : l.world.files fd = some (.conn n)) :
      l.Armed fd (l.fds fd).timeoutIdx := by
    have hopen : l.world.files fd ≠ none := by simp [hf]
    exact ⟨h.belongs hopen, rfl⟩
  refine ⟨fun fd => ⟨fun hb hf => ?_, h.belongs⟩, fun fd => h.listening,
    ⟨h.listen.1, h.listen.2.1⟩, fun fd n hf => ⟨(h.live hf).callback, (h.live hf).asks⟩,
    fun fd n hf => ?_, fun fd n hf => (h.live hf).deadline, fun n => h.sent,
    fun fd n hf => (h.live hf).echoed, fun hready fd n hf => ?_, hok.log⟩
  · exact h.loopId (hb.symm.trans (h.free hf))
  · have hslot := (h.live hf).timed
    have ha := harmed fd n hf
    exact ⟨_, hslot, ha, ((hok.slots _ hslot).mem fd).mpr ha, (hok.window ha hslot).1⟩
  · have hlive := h.live hf
    have hlt := hwaiting hready fd _ hlive.timed (harmed fd n hf)
    rw [hlive.deadline, h.resolution] at hlt
    omega

theorem Tidy.silent (h : Tidy listenSock l) (hok : l.Ok) {wake : Wake (Nat → Events)}
    (hw : l.Fits timeoutSecs wake) {answers : Nat → Answer} (ht : ∀ fd, (answers fd).Tame) :
    Silent wake answers l := by
  intro ready passed fd handler mid hready hpoll hx hf
  have hkeeps : Loop.Keeps select timeoutSecs (call answers) (Tidy listenSock) fun _ => False :=
    call_keeps ht
  have htick : Tidy listenSock (l.tick wake.before) := h.congr rfl rfl rfl rfl rfl
  have hpass : ComesTo ((l.tick wake.before).pollOnce (call answers) ready) _ fun _ => False :=
    Loop.pollOnce_polled Loop.select_lawful (hkeeps.serves htick) (hok.tick hw.before) htick hw.pass
  obtain ⟨hpolled, hpassed⟩ := hpass.of_ok hpoll
  obtain ⟨hok', hin⟩ := hpolled.toStays.last 10 hw
  have hmid : Tidy listenSock mid :=
    Loop.KeepsTime.keeps Loop.select_lawful (hkeeps.keepsTime _) hok'
      (hkeeps.tick hin hpassed) hin hx
  obtain ⟨n, hfile⟩ := hmid.conn_of_firing hf
  refine ⟨n, hfile, ?_⟩
  rw [← (hmid.live hfile).deadline]
  exact hf.early.2

/-- **The echo server.** In no turn of any run an assertion fails. -/
theorem echo_serves (hmax : listenSock < maxFds) (h₀ : start listenSock time = .ok l₀)
    (h : Reachable echo l₀ l) (he : echo.enabled l (wake, answers)) :
    ∃ l', echo.step l (wake, answers) = .ok l' ∧ Served listenSock wake l' ∧
      Silent wake answers l := by
  obtain ⟨hstart, hok₀, htidy₀⟩ := start_ok hmax time
  obtain rfl := Except.ok.inj (hstart.symm.trans h₀)
  obtain ⟨hok, htidy⟩ := Loop.Keeps.invariant Loop.select_lawful (fun _ ha => call_keeps ha)
    Tidy.narrow (fun _ h => h.congr rfl rfl rfl rfl rfl) hok₀ htidy₀ h
  obtain ⟨hw, htame⟩ := he
  have hsilent : Silent wake answers l := htidy.silent hok hw htame
  cases hready : wake.ready with
  | none =>
    refine ⟨l.tick wake.before, Loop.turn_failed htidy.narrow hready, ?_, hsilent⟩
    have htick : Tidy listenSock (l.tick wake.before) := htidy.congr rfl rfl rfl rfl rfl
    exact htick.served (hok.tick hw.before) fun h => absurd hready h
  | some ready =>
    obtain ⟨l', hrun, ⟨mid, hp, hh⟩, htidy'⟩ := (Loop.loopOnce_turned Loop.select_lawful
      (call_keeps htame) hok htidy hw hready).exists_ok
    exact ⟨l', hrun, htidy'.served hh.ok fun _ _ _ hs ha => hh.waiting hs ha, hsilent⟩

-- ---------------------------------------------------------------------------
-- A client comes
-- ---------------------------------------------------------------------------

def started : Server := (blank 3 1000).added 3 ⟨true, false⟩ 0 .acceptCallback

def oneClient : Nat → Answer := fun _ => ⟨some 5, .again, .failed⟩

def listenReady : Nat → Events := fun fd => ⟨fd = 3, false⟩

def firstWake : Wake (Nat → Events) := ⟨1000, some listenReady, 1001⟩

theorem firstTurn_enabled : echo.enabled started (firstWake, oneClient) := by
  have hfits : started.Fits timeoutSecs firstWake := ⟨le_rfl, by decide, by decide⟩
  refine ⟨hfits, fun _ => ⟨fun n hn => ?_, Output.noConfusion⟩⟩
  obtain rfl : 5 = n := Option.some.inj hn
  decide

theorem echo_serves_one :
    ∃ l', echo.step started (firstWake, oneClient) = .ok l' ∧ Served 3 firstWake l' ∧
      Silent firstWake oneClient started :=
  echo_serves (by decide) (start_ok (by decide) 1000).1 .refl firstTurn_enabled

end

end Canvasback.Picoev.Echo
