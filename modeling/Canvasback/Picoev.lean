import Canvasback.Lib.TwoLevel

/-!
# picoev

The core of picoev.h: the table of descriptors, and for each loop a wheel of
128 slots in which a timeout waits for its turn. A slot is a set of
descriptors, kept as bits in `vec` and, over its words, in `vec_of_vec`.

Descriptors are taken as unsigned, as picoev's range check takes them. `world`
is what picoev.h does not see: the backend's own state, the program's, the
system's. `deadline` and `log` are not in the program; they record until when
a timeout was asked for and which callbacks were called.
-/

namespace Canvasback.Picoev

open TwoLevel

/-- `PICOEV_READ` and `PICOEV_WRITE`. -/
structure Events where
  read : Bool
  write : Bool
  deriving DecidableEq, Repr

def Events.none : Events := ⟨false, false⟩

/-- `FD_SETSIZE`: an `fd_set` has a bit for each descriptor below. -/
def fdSetSize : Nat := 1024

/-- What a callback is told. -/
inductive Revents where
  | io (events : Events)
  | timeout
  deriving DecidableEq, Repr

/-- The `events` of `picoev_update_events_internal`: with `PICOEV_ADD`, alone,
or `PICOEV_DEL`. -/
inductive Update where
  | add (events : Events)
  | set (events : Events)
  | del
  deriving DecidableEq, Repr

/-- `events & PICOEV_READWRITE`. -/
def Update.readWrite : Update → Events
  | .add events => events
  | .set events => events
  | .del => .none

/-- `picoev_fd`; a callback goes with its `cb_arg`. -/
structure Entry (κ : Type) where
  callback : Option κ
  loopId : Nat
  events : Events
  timeoutIdx : Nat
  backend : Int
  deadline : Int

/-- As `picoev_init` clears it. -/
def Entry.cleared {κ : Type} : Entry κ := ⟨.none, 0, .none, 0, 0, 0⟩

structure Called where
  fd : Nat
  revents : Revents
  time : Int
  deadline : Int
  deriving DecidableEq, Repr

/-- `picoev_loop`, with the table of the globals. -/
structure Loop (κ ω : Type) where
  fds : Nat → Entry κ
  maxFd : Nat
  loopId : Nat
  rows : Nat → Rows 16
  baseIdx : Nat
  baseTime : Int
  resolution : Int
  now : Int
  world : ω
  log : List Called

/-- Why the loop does not go on; `program` is for the program's own reasons. -/
inductive Fault where
  | assertion
  | badPointer
  | outOfTurns
  | program
  deriving DecidableEq, Repr

/-- `PICOEV_TIMEOUT_VEC_SIZE`. -/
def vecSize : Nat := 128

/-- `PICOEV_TIMEOUT_IDX_UNUSED`. -/
def unused : Nat := 255

/-- `PICOEV_RND_UP`. -/
def rndUp (v d : Nat) : Nat := (v + d - 1) / d * d

/-- `picoev.timeout_vec_size`, in shorts. -/
def timeoutVecSize (maxFd : Nat) : Nat := rndUp maxFd 128 / 16

def timeoutVecOfVecSize (maxFd : Nat) : Nat := rndUp (timeoutVecSize maxFd) 128 / 16

namespace Loop

section
variable {κ ω : Type}

def setFd (l : Loop κ ω) (fd : Nat) (e : Entry κ) : Loop κ ω :=
  { l with fds := Function.update l.fds fd e }

def setRows (l : Loop κ ω) (slot : Nat) (r : Rows 16) : Loop κ ω :=
  { l with rows := Function.update l.rows slot r }

/-- `PICOEV_FD_BELONGS_TO_LOOP`. -/
def Belongs (l : Loop κ ω) (fd : Nat) : Prop := (l.fds fd).loopId = l.loopId

instance (l : Loop κ ω) (fd : Nat) : Decidable (l.Belongs fd) :=
  inferInstanceAs (Decidable (_ = _))

-- ---------------------------------------------------------------------------
-- Timeouts
-- ---------------------------------------------------------------------------

/-- `/* clear timeout */` in `picoev_set_timeout`. -/
def clearTimeout (l : Loop κ ω) (fd : Nat) : Loop κ ω :=
  let target := l.fds fd
  if target.timeoutIdx = unused then l
  else
    (l.setRows target.timeoutIdx ((l.rows target.timeoutIdx).erase fd)).setFd fd
      { target with timeoutIdx := unused }

/-- How many slots ahead, a `size_t` from a division of `time_t`s. -/
def delta (l : Loop κ ω) (secs : Int) : Nat :=
  let delta := ((l.now + secs - l.baseTime).tdiv l.resolution % 2 ^ 64).toNat
  if vecSize ≤ delta then vecSize - 1 else delta

def slotOf (l : Loop κ ω) (secs : Int) : Nat := (l.baseIdx + l.delta secs) % vecSize

def armTimeout (l : Loop κ ω) (fd : Nat) (secs : Int) : Loop κ ω :=
  if secs = 0 then l
  else
    let idx := l.slotOf secs
    (l.setFd fd { l.fds fd with timeoutIdx := idx, deadline := l.now + secs }).setRows idx
      ((l.rows idx).insert fd)

/-- `picoev_set_timeout`. -/
def setTimeout (l : Loop κ ω) (fd : Nat) (secs : Int) : Except Fault (Loop κ ω) :=
  if fd < l.maxFd ∧ l.Belongs fd then .ok ((l.clearTimeout fd).armTimeout fd secs)
  else .error .assertion

-- ---------------------------------------------------------------------------
-- Registrations
-- ---------------------------------------------------------------------------

end

end Loop

/-- What each backend defines. Its result is 0 in all of them, so a failed
update is not there. -/
structure Backend (κ ω : Type) where
  /-- `picoev_update_events_internal`. -/
  update : Loop κ ω → Nat → Update → Except Fault (Loop κ ω)

namespace Loop

section
variable {κ ω : Type} (backend : Backend κ ω)

/-- `picoev_add`. -/
def add (l : Loop κ ω) (fd : Nat) (events : Events) (timeoutInSecs : Int) (callback : κ) :
    Except Fault (Loop κ ω) :=
  let target := l.fds fd
  if fd < l.maxFd ∧ target.loopId = 0 then do
    let l := l.setFd fd { target with
      callback := some callback, loopId := l.loopId, events := .none, timeoutIdx := unused }
    let l ← backend.update l fd (.add events)
    l.setTimeout fd timeoutInSecs
  else .error .assertion

/-- `picoev_del`. -/
def del (l : Loop κ ω) (fd : Nat) : Except Fault (Loop κ ω) :=
  if fd < l.maxFd then do
    let l ← backend.update l fd .del
    let l ← l.setTimeout fd 0
    .ok (l.setFd fd { l.fds fd with loopId := 0 })
  else .error .assertion

/-- `picoev_set_events`. -/
def setEvents (l : Loop κ ω) (fd : Nat) (events : Events) : Except Fault (Loop κ ω) :=
  if fd < l.maxFd then
    if (l.fds fd).events = events then .ok l else backend.update l fd (.set events)
  else .error .assertion

end

-- ---------------------------------------------------------------------------
-- `picoev_handle_timeout_internal`
-- ---------------------------------------------------------------------------

section
variable {κ ω : Type} (call : κ → Nat → Revents → Loop κ ω → Except Fault (Loop κ ω))

def logged (l : Loop κ ω) (fd : Nat) (revents : Revents) : Loop κ ω :=
  { l with log := l.log ++ [⟨fd, revents, l.now, (l.fds fd).deadline⟩] }

/-- A call through a descriptor's callback. -/
def callback (l : Loop κ ω) (fd : Nat) (revents : Revents) : Except Fault (Loop κ ω) :=
  match (l.fds fd).callback with
  | .none => .error .badPointer
  | some callback => call callback fd revents (l.logged fd revents)

/-- The timeout of a descriptor. -/
def fire (l : Loop κ ω) (fd : Nat) : Except Fault (Loop κ ω) :=
  if l.Belongs fd then
    (l.setFd fd { l.fds fd with timeoutIdx := unused }).callback call fd .timeout
  else .error .assertion

/-- The timeouts in word `j` of a slot; bits are taken from the word as it is
found. -/
def fireWord (slot j : Nat) (l : Loop κ ω) : Except Fault (Loop κ ω) :=
  let v := (l.rows slot).words j
  if v = 0#16 then .error .assertion
  else do
    let l ← scanWord (fun fd l => l.fire call fd) 16 (j * 16) v l
    .ok (l.setRows slot ((l.rows slot).setWord j 0))

def fireWords (slot i : Nat) (l : Loop κ ω) : Except Fault (Loop κ ω) :=
  let vv := (l.rows slot).summary i
  if vv = 0#16 then .ok l
  else do
    let l ← scanWord (fireWord call slot) 16 (i * 16) vv l
    .ok (l.setRows slot ((l.rows slot).setSummary i 0))

def fireSlot (l : Loop κ ω) : Except Fault (Loop κ ω) :=
  (List.range (timeoutVecOfVecSize l.maxFd)).foldlM (fun l' i => fireWords call l.baseIdx i l') l

/-- The wheel, one slot on. -/
def advance (l : Loop κ ω) : Loop κ ω :=
  { l with baseIdx := (l.baseIdx + 1) % vecSize, baseTime := l.baseTime + l.resolution }

/-- `picoev_handle_timeout_internal`, for a loop of so many turns. -/
def handleTimeout : (turns : Nat) → Loop κ ω → Except Fault (Loop κ ω)
  | turns, l =>
    if l.baseTime ≤ l.now - l.resolution then
      match turns with
      | 0 => .error .outOfTurns
      | turns + 1 => do
        let l ← l.fireSlot call
        handleTimeout turns l.advance
    else .ok l

end

-- ---------------------------------------------------------------------------
-- A loop
-- ---------------------------------------------------------------------------

section
variable {κ ω : Type}

/-- `picoev_create_loop` after `picoev_init`, as the first loop. -/
def create (maxFd maxTimeout : Nat) (time : Int) (world : ω) : Loop κ ω where
  fds _ := .cleared
  maxFd := maxFd
  loopId := 1
  rows _ := .empty
  baseIdx := 0
  baseTime := time
  resolution := rndUp maxTimeout vecSize / vecSize
  now := time
  world := world
  log := []

end

end Loop

end Canvasback.Picoev
