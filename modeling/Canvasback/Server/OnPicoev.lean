import Canvasback.Lib.Simulation
import Canvasback.Picoev.Select
import Canvasback.Server.Process

/-!
# The server on picoev

The callbacks once more, now on picoev's own loop: what they register goes
through `picoev_add` and `picoev_del` into the table and the kernel's sets, and
`picoev_loop_once` calls them. The server of `Canvasback.Server` is what is
seen of it: its states are those the loop runs through, no more and no less.
-/

namespace Canvasback

open CString Picoev Runs

/-- Why the server stops, as picoev has it. -/
def Stop.fault : Stop → Fault
  | .abort => .assertion
  | .badPointer => .badPointer
  | .rows _ => .program
  | .hang => .program
  | .sigpipe => .program

namespace OnPicoev

/-- picoev's loop with the program's and the system's state; `fds` of that is
not used. -/
abbrev State := Picoev.Loop Callback Server

/-- The table as the server sees it. -/
def registered (l : State) (fd : Fd) : Option Callback :=
  if 0 ≤ fd ∧ l.Belongs fd.toNat then (l.fds fd.toNat).callback else none

/-- A server with these registrations. -/
def withFds (s : Server) (fds : Fd → Option Callback) : Server := { s with fds }

def serverOf (l : State) : Server := withFds l.world (registered l)

def onWorld (l : State) (f : Server → Server) : State := { l with world := f l.world }

def lift {α : Type} (x : Except Stop α) : Except Fault α := x.mapError Stop.fault

/-- `picoev_add`; a negative descriptor is out of range. -/
def picoevAdd (l : State) (fd : Fd) (callback : Callback) : Except Fault State :=
  if 0 ≤ fd then l.add select fd.toNat ⟨true, false⟩ 0 callback else .error .assertion

def picoevDel (l : State) (who : Actor) (fd : Fd) : Except Fault State :=
  if 0 ≤ fd then do
    let l' ← l.del select fd.toNat
    .ok (onWorld l' fun s => s.note who (.del (s.files fd)))
  else .error .assertion

/-- `(revents & PICOEV_READ) != 0`. -/
def Reads : Revents → Prop
  | .io events => events.read = true
  | .timeout => False

instance : DecidablePred Reads
  | .io events => inferInstanceAs (Decidable (events.read = true))
  | .timeout => inferInstanceAs (Decidable False)

-- ---------------------------------------------------------------------------
-- The callbacks
-- ---------------------------------------------------------------------------

def closeExit (l : State) (who : Actor) (fd : Fd) (client : Nat) : Except Fault State := do
  let l ← picoevDel l who fd
  let l := onWorld l fun s => s.close who fd
  let s ← lift (l.world.free client)
  .ok { l with world := s }

/-- `read_cb`. -/
def readCb (l : State) (fd : Fd) (revents : Revents) (r : Read) (behind : List UInt8)
    (db : Libpq) : Except Fault State :=
  let origin := l.world.connAt fd
  let who := Actor.readCb origin
  let client := l.world.malloc.1
  let l := onWorld l fun s => s.malloc.2
  if Reads revents then
    match r with
    | .eof => closeExit l who fd client
    | .again => .ok l
    | .error => closeExit l who fd client
    | .data buf =>
      match parseRead buf with
      | .error _ => .error .assertion
      | .ok (request, _) =>
        let l := onWorld l fun s => s.write who fd Server.resHead
        match tokenLoop ((buf ++ behind).drop request.pathOff) with
        | .close => closeExit l who fd client
        | .tile n => do
          let tile := n.tile
          let bbox := tms2bbox tile
          let (conn, s) ← lift (l.world.sendConn tile bbox db)
          let l : State := { l with world := s }
          let dbfd := l.world.pqSocket conn
          let l := onWorld l fun s => s.store client { fd, bbox, tile, dbfd, conn, origin }
          picoevAdd l dbfd (.dbBinCb client)
  else .error .assertion

/-- `accept_cb`. -/
def acceptCb (l : State) (revents : Revents) (newfd : Fd) : Except Fault State :=
  if Reads revents then
    if newfd = -1 then .ok l
    else
      let l := onWorld l fun s =>
        { s.openFile newfd (.conn s.nextConn) with nextConn := s.nextConn + 1 }
      picoevAdd l newfd .readCb
  else .error .assertion

section
variable (scale : Scale) (junk : Nat → UInt8) (fuel : Nat)

/-- `fmt_res_bin`. -/
def fmtResBin (l : State) (client : Nat) (rows : List Row) : Except Fault State := do
  let c ← lift (l.world.load client)
  let who := Actor.fmtResBin c.origin c.conn
  match rows with
  | [] =>
    let l := onWorld l fun s => s.write who c.fd (ascii "0\r\n\r\n")
    let s ← lift (l.world.pqFinish who c.conn)
    let l ← picoevDel { l with world := s } who c.fd
    let l ← picoevDel l who c.dbfd
    let l := onWorld l fun s => s.close who c.fd
    let s ← lift (l.world.free client)
    .ok { l with world := s }
  | rows =>
    match fmtRows scale c.tile fuel rows ⟨0, 0, Canvasback.malloc junk (chunkCnt rows)⟩ with
    | .error fault => .error (Stop.rows fault).fault
    | .ok strm =>
      let l := onWorld l fun s =>
        (Server.tileWrites strm).foldl (fun s bytes => s.write who c.fd bytes) s
      let s ← lift (l.world.pqFinish who c.conn)
      let l := onWorld { l with world := s } fun s => s.close who c.fd
      let l ← picoevDel l who c.fd
      let l ← picoevDel l who c.dbfd
      let s ← lift (l.world.free client)
      .ok { l with world := s }

/-- `db_bin_cb`. -/
def dbBinCb (l : State) (cbArg : Nat) (rows : List Row) : Except Fault State :=
  fmtResBin scale junk fuel l cbArg rows

end

-- ---------------------------------------------------------------------------
-- What is seen of the loop
-- ---------------------------------------------------------------------------

/-- What holds of the table: everything in it waits to be read from, and has no
timeout. -/
structure Good (l : State) : Prop where
  maxFd : (l.maxFd : Int) = Server.maxFd
  loopId : l.loopId ≠ 0
  free : ¬ l.Belongs fd → (l.fds fd).loopId = 0
  callback : l.Belongs fd → (l.fds fd).callback ≠ none
  events : l.Belongs fd → (l.fds fd).events = ⟨true, false⟩
  idle : l.Belongs fd → (l.fds fd).timeoutIdx = unused

/-- What is seen of a state. -/
def Seen (l : State) (s : Server) : Prop := Good l ∧ s = serverOf l

def Told (fault : Fault) (stop : Stop) : Prop := fault = stop.fault

/-- A change of the server that has nothing to do with its registrations. -/
def Blind (f : Server → Server) : Prop := ∀ s fds, f (withFds s fds) = withFds (f s) fds

section
variable {l l' : State} {s : Server} {fd d : Fd} {who : Actor} {callback : Callback} {p : Nat}
  {f : Server → Server} {bytes : List UInt8} {file : File}

theorem Good.setWorld (h : Good l) (w : Server) : Good { l with world := w } :=
  ⟨h.maxFd, h.loopId, h.free, h.callback, h.events, h.idle⟩

theorem Seen.onWorld (h : Seen l s) (hf : Blind f) : Seen (onWorld l f) (f s) := by
  obtain ⟨hg, rfl⟩ := h
  exact ⟨hg.setWorld _, hf l.world (registered l)⟩

theorem blind_write (who : Actor) (fd : Fd) (bytes : List UInt8) :
    Blind fun s => s.write who fd bytes := by
  intro s fds
  simp only [Server.write, withFds]
  cases s.files fd <;> rfl

theorem blind_close (who : Actor) (fd : Fd) : Blind fun s => s.close who fd := by
  intro s fds
  simp only [Server.close, withFds]
  cases s.files fd <;> rfl

theorem blind_writes (who : Actor) (fd : Fd) (ws : List (List UInt8)) :
    Blind fun s => ws.foldl (fun s bytes => s.write who fd bytes) s := by
  induction ws with
  | nil => exact fun _ _ => rfl
  | cons bytes ws ih =>
    intro s fds
    show ws.foldl _ ((withFds s fds).write who fd bytes) = _
    rw [show (withFds s fds).write who fd bytes = withFds (s.write who fd bytes) fds from
      blind_write who fd bytes s fds]
    exact ih _ _

/-- A call that has nothing to do with registrations and may fail. -/
theorem Seen.lift {f : Server → Except Stop Server} (h : Seen l s)
    (hf : ∀ s fds, f (withFds s fds) = (f s).map fun s => withFds s fds) :
    Matches (fun w t => Seen { l with world := w } t) Told (lift (f l.world)) (f s) := by
  obtain ⟨hg, rfl⟩ := h
  rw [serverOf, hf]
  cases hw : f l.world with
  | error stop => exact .fails rfl rfl rfl
  | ok w => exact .returns rfl rfl ⟨hg.setWorld w, rfl⟩

theorem Seen.free (h : Seen l s) (p : Nat) :
    Matches (fun w t => Seen { l with world := w } t) Told (OnPicoev.lift (l.world.free p))
      (s.free p) := by
  refine h.lift (f := fun s => s.free p) fun s fds => ?_
  have hheap : (withFds s fds).heap p = s.heap p := rfl
  simp only [Server.free]
  by_cases hp : s.heap p = none
  · rw [if_pos hp, if_pos (hheap.trans hp)]
    rfl
  · rw [if_neg hp, if_neg (hheap ▸ hp)]
    rfl

theorem Seen.pqFinish (h : Seen l s) (who : Actor) (conn : Nat) :
    Matches (fun w t => Seen { l with world := w } t) Told
      (OnPicoev.lift (l.world.pqFinish who conn)) (s.pqFinish who conn) := by
  refine h.lift (f := fun s => s.pqFinish who conn) fun s fds => ?_
  have hpgs : (withFds s fds).pgs conn = s.pgs conn := rfl
  simp only [Server.pqFinish, hpgs]
  split
  · rfl
  · rename_i pg _
    have hclose : (withFds s fds).close who pg.sock = withFds (s.close who pg.sock) fds :=
      blind_close who pg.sock s fds
    rw [hclose]
    split <;> rfl

theorem Seen.load (h : Seen l s) (p : Nat) :
    Matches Eq Told (OnPicoev.lift (l.world.load p)) (s.load p) := by
  obtain ⟨-, rfl⟩ := h
  show Matches Eq Told (OnPicoev.lift (l.world.load p)) (l.world.load p)
  cases l.world.load p with
  | error stop => exact .error rfl
  | ok c => exact .ok rfl

theorem Seen.sendConn (h : Seen l s) (tile : Tms) (bbox : Bbox) (db : Libpq) :
    Matches (fun w t => w.1 = t.1 ∧ Seen { l with world := w.2 } t.2) Told
      (OnPicoev.lift (l.world.sendConn tile bbox db)) (s.sendConn tile bbox db) := by
  obtain ⟨hg, rfl⟩ := h
  simp only [Server.sendConn]
  split
  · exact .ok ⟨rfl, hg.setWorld _, rfl⟩
  · split
    · exact .error rfl
    · exact .ok ⟨rfl, hg.setWorld _, rfl⟩

-- ---------------------------------------------------------------------------
-- Registrations
-- ---------------------------------------------------------------------------

theorem Good.registered_ne_none (h : Good l) (hfd : 0 ≤ fd) :
    registered l fd ≠ none ↔ l.Belongs fd.toNat := by
  unfold registered
  constructor
  · intro hr
    by_contra hb
    exact hr (if_neg fun hc => hb hc.2)
  · intro hb
    rw [if_pos ⟨hfd, hb⟩]
    exact h.callback hb

theorem inRange_iff (h : Good l) (hfd : 0 ≤ fd) : Server.InRange fd ↔ fd.toNat < l.maxFd := by
  rw [Int.toNat_lt hfd, h.maxFd]
  exact ⟨And.right, fun hlt => ⟨hfd, hlt⟩⟩

/-- A table that differs in one place. -/
theorem registered_update (hfd : 0 ≤ fd) {e : Picoev.Entry Callback}
    (hid : l'.loopId = l.loopId)
    (hfds : ∀ n, l'.fds n = if n = fd.toNat then e else l.fds n) :
    registered l' = Function.update (registered l) fd
      (if e.loopId = l.loopId then e.callback else none) := by
  funext d
  have hbel (n : Nat) : l'.Belongs n ↔
      if n = fd.toNat then e.loopId = l.loopId else l.Belongs n := by
    unfold Loop.Belongs
    rw [hfds, hid]
    split <;> rfl
  rw [Function.update_apply]
  simp only [registered, hbel, hfds]
  by_cases hd : d = fd
  · simp [hd, hfd]
  · by_cases hpos : 0 ≤ d
    · have hne : d.toNat ≠ fd.toNat := fun he => hd ((Int.toNat_of_nonneg hpos).symm.trans
        ((congrArg Int.ofNat he).trans (Int.toNat_of_nonneg hfd)))
      simp only [hne, if_false, hd]
    · simp [hpos, hd]

/-- What an entry has to be like. -/
theorem Good.update (h : Good l) {n : Nat} {e : Picoev.Entry Callback} (hmax : l'.maxFd = l.maxFd)
    (hid : l'.loopId = l.loopId) (hfds : ∀ m, l'.fds m = if m = n then e else l.fds m)
    (he : e.loopId = 0 ∨ e.loopId = l.loopId ∧ e.callback ≠ none ∧ e.events = ⟨true, false⟩ ∧
      e.timeoutIdx = unused) : Good l' := by
  have hbel (m : Nat) : l'.Belongs m ↔ if m = n then e.loopId = l.loopId else l.Belongs m := by
    unfold Loop.Belongs
    rw [hfds, hid]
    split <;> rfl
  have hzero : e.loopId = 0 → e.loopId ≠ l.loopId := fun h0 hl => h.loopId (hl.symm.trans h0)
  refine ⟨hmax ▸ h.maxFd, hid ▸ h.loopId, fun {m} hm => ?_, fun {m} hm => ?_, fun {m} hm => ?_,
    fun {m} hm => ?_⟩
  all_goals
    rw [hbel] at hm
    rw [hfds]
    split at hm
  · rename_i hmn
    rw [if_pos hmn]
    rcases he with he | he
    · exact he
    · exact absurd he.1 hm
  · rename_i hmn
    rw [if_neg hmn]
    exact h.free hm
  · rename_i hmn
    rw [if_pos hmn]
    rcases he with he | he
    · exact absurd hm (hzero he)
    · exact he.2.1
  · rename_i hmn
    rw [if_neg hmn]
    exact h.callback hm
  · rename_i hmn
    rw [if_pos hmn]
    rcases he with he | he
    · exact absurd hm (hzero he)
    · exact he.2.2.1
  · rename_i hmn
    rw [if_neg hmn]
    exact h.events hm
  · rename_i hmn
    rw [if_pos hmn]
    rcases he with he | he
    · exact absurd hm (hzero he)
    · exact he.2.2.2
  · rename_i hmn
    rw [if_neg hmn]
    exact h.idle hm

theorem picoevAdd_matches (h : Seen l s) (fd : Fd) (callback : Callback) :
    Matches Seen Told (picoevAdd l fd callback) (s.picoevAdd fd callback) := by
  obtain ⟨hg, rfl⟩ := h
  have hreg : (serverOf l).fds fd = registered l fd := rfl
  unfold picoevAdd
  by_cases hfd : 0 ≤ fd
  · rw [if_pos hfd]
    by_cases hb : l.Belongs fd.toNat
    · have hfail : l.add select fd.toNat ⟨true, false⟩ 0 callback = .error .assertion :=
        if_neg fun hc => hg.loopId (hb.symm.trans hc.2)
      have hfail' : (serverOf l).picoevAdd fd callback = .error .abort :=
        if_neg fun hc => (hg.registered_ne_none hfd).mpr hb hc.2
      exact .fails hfail hfail' rfl
    · have hnone : registered l fd = none := by
        by_contra hr
        exact hb ((hg.registered_ne_none hfd).mp hr)
      by_cases hmax : fd.toNat < l.maxFd
      · have hfds := Loop.added_fds l fd.toNat ⟨true, false⟩ 0 callback
        obtain ⟨hs, hw⟩ := Loop.added_same l fd.toNat ⟨true, false⟩ 0 callback
        have hok' : (serverOf l).picoevAdd fd callback = _ :=
          if_pos ⟨(inRange_iff hg hfd).mpr hmax, hnone⟩
        refine .returns (Loop.add_select hmax (hg.free hb)) hok'
          ⟨hg.update hs.maxFd hs.loopId hfds (.inr ⟨rfl, Option.some_ne_none _, rfl, rfl⟩), ?_⟩
        have hregs := registered_update hfd hs.loopId hfds
        rw [if_pos rfl] at hregs
        show _ = withFds (l.added fd.toNat ⟨true, false⟩ 0 callback).world (registered _)
        rw [hw, hregs]
        rfl
      · have hfail : l.add select fd.toNat ⟨true, false⟩ 0 callback = .error .assertion :=
          if_neg fun hc => hmax hc.1
        have hfail' : (serverOf l).picoevAdd fd callback = .error .abort :=
          if_neg fun hc => hmax ((inRange_iff hg hfd).mp hc.1)
        exact .fails hfail hfail' rfl
  · have hfail' : (serverOf l).picoevAdd fd callback = .error .abort :=
      if_neg fun hc => hfd hc.1.1
    rw [if_neg hfd]
    exact .fails rfl hfail' rfl

theorem picoevDel_matches (h : Seen l s) (who : Actor) (fd : Fd) :
    Matches Seen Told (picoevDel l who fd) (s.picoevDel who fd) := by
  obtain ⟨hg, rfl⟩ := h
  unfold picoevDel
  by_cases hfd : 0 ≤ fd
  · rw [if_pos hfd]
    by_cases hmax : fd.toNat < l.maxFd
    · by_cases hb : l.Belongs fd.toNat
      · obtain ⟨hs, hw⟩ : l.Same (l.deleted fd.toNat) ∧ _ := Loop.deleted_same
        have hfds (n : Nat) : (l.deleted fd.toNat).fds n = _ := Loop.deleted_fds
        have hok' : (serverOf l).picoevDel who fd = _ :=
          if_pos ⟨(inRange_iff hg hfd).mpr hmax, (hg.registered_ne_none hfd).mpr hb⟩
        have hok : (do
            let l' ← l.del select fd.toNat
            .ok (onWorld l' fun s => s.note who (.del (s.files fd))) : Except Fault State) =
            .ok (onWorld (l.deleted fd.toNat) fun s => s.note who (.del (s.files fd))) := by
          rw [Loop.del_select hmax hb]
          rfl
        refine .returns hok hok' ⟨(hg.update hs.maxFd hs.loopId hfds (.inl rfl)).setWorld _, ?_⟩
        have hregs : registered (onWorld (l.deleted fd.toNat) fun s =>
            s.note who (.del (s.files fd))) = Function.update (registered l) fd none := by
          have hzero : (0 : Nat) ≠ l.loopId := hg.loopId.symm
          exact (registered_update hfd hs.loopId hfds).trans (by rw [if_neg hzero])
        show _ = withFds ((l.deleted fd.toNat).world.note who
          (.del ((l.deleted fd.toNat).world.files fd))) (registered (onWorld _ _))
        rw [hregs, hw]
        rfl
      · have hfail : l.del select fd.toNat = .error .assertion := by
          unfold Loop.del
          rw [if_pos hmax]
          have hset : (l.setFd fd.toNat { l.fds fd.toNat with events := .none }).setTimeout
              fd.toNat 0 = .error .assertion := by
            refine if_neg fun hc => hb ?_
            have := hc.2
            unfold Loop.Belongs at this
            rwa [Loop.setFd_fds, if_pos rfl] at this
          show (l.setFd fd.toNat { l.fds fd.toNat with events := .none }).setTimeout fd.toNat 0 >>=
            _ = _
          rw [hset]
          rfl
        have hfail' : (serverOf l).picoevDel who fd = .error .abort :=
          if_neg fun hc => hb ((hg.registered_ne_none hfd).mp hc.2)
        rw [hfail]
        exact .fails rfl hfail' rfl
    · have hfail : l.del select fd.toNat = .error .assertion := if_neg hmax
      have hfail' : (serverOf l).picoevDel who fd = .error .abort :=
        if_neg fun hc => hmax ((inRange_iff hg hfd).mp hc.1)
      rw [hfail]
      exact .fails rfl hfail' rfl
  · have hfail' : (serverOf l).picoevDel who fd = .error .abort :=
      if_neg fun hc => hfd hc.1.1
    rw [if_neg hfd]
    exact .fails rfl hfail' rfl

-- ---------------------------------------------------------------------------
-- The callbacks
-- ---------------------------------------------------------------------------

theorem closeExit_matches (h : Seen l s) (who : Actor) (fd : Fd) (client : Nat) :
    Matches Seen Told (closeExit l who fd client) (s.closeExit who fd client) := by
  refine (picoevDel_matches h who fd).bind fun l s h => ?_
  have hclosed : Seen (onWorld l fun s => s.close who fd) (s.close who fd) :=
    h.onWorld (blind_close who fd)
  exact (hclosed.free client).map_ok fun w t h => h

theorem readCb_matches (h : Seen l s) (fd : Fd) {revents : Revents} (hr : Reads revents) (r : Read)
    (behind : List UInt8) (db : Libpq) :
    Matches Seen Told (readCb l fd revents r behind db) (s.readCb fd r behind db) := by
  have horigin : s.connAt fd = l.world.connAt fd := by
    obtain ⟨-, rfl⟩ := h
    rfl
  have hclient : s.malloc.1 = l.world.malloc.1 := by
    obtain ⟨-, rfl⟩ := h
    rfl
  have hmalloc : Seen (onWorld l fun s => s.malloc.2) s.malloc.2 := h.onWorld fun _ _ => rfl
  rw [Server.readCb, horigin]
  unfold readCb
  simp only [hr, if_true, hclient]
  cases r with
  | eof => exact closeExit_matches hmalloc _ fd _
  | again => exact .ok hmalloc
  | error => exact closeExit_matches hmalloc _ fd _
  | data buf =>
    simp only
    cases parseRead buf with
    | error e => exact .error rfl
    | ok v =>
      obtain ⟨request, k⟩ := v
      have hhead := hmalloc.onWorld (blind_write (.readCb (l.world.connAt fd)) fd Server.resHead)
      simp only
      cases tokenLoop ((buf ++ behind).drop request.pathOff) with
      | close => exact closeExit_matches hhead _ fd _
      | tile n =>
        refine (hhead.sendConn n.tile (tms2bbox n.tile) db).bind fun v t hv => ?_
        obtain ⟨conn, w⟩ := v
        obtain ⟨conn', t⟩ := t
        obtain ⟨hconn, hseen⟩ := hv
        simp only at hconn hseen
        subst hconn
        have hsock : t.pqSocket conn = w.pqSocket conn := by
          obtain ⟨-, rfl⟩ := hseen
          rfl
        show Matches Seen Told _ ((t.store l.world.malloc.1 ⟨fd, tms2bbox n.tile, n.tile,
          t.pqSocket conn, conn, l.world.connAt fd⟩).picoevAdd (t.pqSocket conn)
            (.dbBinCb l.world.malloc.1))
        rw [hsock]
        exact picoevAdd_matches (hseen.onWorld (f := fun s => s.store l.world.malloc.1
          ⟨fd, tms2bbox n.tile, n.tile, w.pqSocket conn, conn, l.world.connAt fd⟩)
          fun _ _ => rfl) _ _

theorem acceptCb_matches (h : Seen l s) {revents : Revents} (hr : Reads revents) (newfd : Fd) :
    Matches Seen Told (acceptCb l revents newfd) (s.acceptCb newfd) := by
  unfold acceptCb Server.acceptCb
  rw [if_pos hr]
  split
  · exact .ok h
  · exact picoevAdd_matches (h.onWorld (f := fun s =>
      { s.openFile newfd (.conn s.nextConn) with nextConn := s.nextConn + 1 }) fun _ _ => rfl) _ _

theorem fmtResBin_matches {scale : Scale} {junk : Nat → UInt8} {fuel : Nat} (h : Seen l s)
    (client : Nat) (rows : List Row) :
    Matches Seen Told (fmtResBin scale junk fuel l client rows)
      (s.fmtResBin scale junk fuel client rows) := by
  refine (h.load client).bind fun c c' hc => ?_
  subst hc
  cases rows with
  | nil =>
    have hwritten := h.onWorld (blind_write (.fmtResBin c.origin c.conn) c.fd (ascii "0\r\n\r\n"))
    refine (hwritten.pqFinish _ _).bind fun w t h => ?_
    refine (picoevDel_matches h _ _).bind fun l s h => ?_
    refine (picoevDel_matches h _ _).bind fun l s h => ?_
    have hclosed := h.onWorld (blind_close (.fmtResBin c.origin c.conn) c.fd)
    exact (hclosed.free client).map_ok fun w t h => h
  | cons row rows =>
    simp only
    cases fmtRows scale c.tile fuel (row :: rows)
        ⟨0, 0, Canvasback.malloc junk (chunkCnt (row :: rows))⟩ with
    | error fault => exact .error rfl
    | ok strm =>
      have hwritten := h.onWorld
        (blind_writes (.fmtResBin c.origin c.conn) c.fd (Server.tileWrites strm))
      refine (hwritten.pqFinish _ _).bind fun w t h => ?_
      have hclosed := h.onWorld (blind_close (.fmtResBin c.origin c.conn) c.fd)
      refine (picoevDel_matches hclosed _ _).bind fun l s h => ?_
      refine (picoevDel_matches h _ _).bind fun l s h => ?_
      exact (h.free client).map_ok fun w t h => h

end

end OnPicoev

end Canvasback
