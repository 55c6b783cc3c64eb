import Canvasback.FmtRes
import Canvasback.Lib.Chunked
import Canvasback.Lib.Runs
import Canvasback.TokenLoop.RealTiles
import Mathlib.Logic.Function.Basic

/-!
# The server

The callbacks of canvasback on what they share: the process's open
descriptors, picoev's table of registrations, the heap of `client_t`s and
libpq's connections. The environment brings connections, bytes, hang-ups and
results, and gives out descriptor numbers; it may give one out again as soon as
it is closed. Connections and database sessions therefore carry a number of
their own, that of their coming, which the program does not see.

`log` records what the callbacks do to descriptors, and on whose behalf.
-/

namespace Canvasback

open CString Chunked Runs

abbrev Fd := Int

/-- What an open descriptor stands for. -/
inductive File where
  | listen
  | conn (id : Nat)
  | db (pg : Nat)
  deriving DecidableEq, Repr

/-- A handler and its `cb_arg`. -/
inductive Callback where
  | acceptCb
  | readCb
  | dbBinCb (client : Nat)
  deriving DecidableEq, Repr

/-- `client_t`. That its request came on the connection `origin` is not in the
program. -/
structure Client where
  fd : Fd
  bbox : Bbox
  tile : Tms
  dbfd : Fd
  conn : Nat
  origin : Nat
  deriving DecidableEq, Repr

/-- A `client_t` on the heap, before and after its fields are set. -/
inductive Cell where
  | fresh
  | client (c : Client)
  deriving DecidableEq, Repr

inductive Template where
  | lowz
  | simpmidz
  | midz
  | highz
  | streetz
  deriving DecidableEq, Repr

/-- A `PGconn`: its socket, -1 if it has none, and the query it was sent. -/
structure PgConn where
  sock : Fd
  query : Option (Template × Bbox)
  deriving DecidableEq, Repr

/-- The callback at work: `read_cb` on a connection, or `fmt_res_bin` for a
request of one connection with the result of a database session. -/
inductive Actor where
  | readCb (conn : Nat)
  | fmtResBin (origin pg : Nat)
  deriving DecidableEq, Repr

inductive Act where
  | write (file : File) (bytes : List UInt8)
  | close (file : File)
  | del (file : Option File)
  deriving DecidableEq, Repr

structure Entry where
  actor : Actor
  act : Act
  deriving DecidableEq, Repr

structure Server where
  files : Fd → Option File
  /-- picoev's table; no callback stands for `loop_id == 0`. -/
  fds : Fd → Option Callback
  heap : Nat → Option Cell
  pgs : Nat → Option PgConn
  /-- How many query buffers are allocated. -/
  bufs : Nat
  nextConn : Nat
  nextPtr : Nat
  nextPg : Nat
  log : List Entry

/-- Why the server does not come back to its loop. -/
inductive Stop where
  | abort
  | badPointer
  | rows (fault : Memory.Fault)
  | hang
  | sigpipe
  deriving DecidableEq, Repr

/-- What `read` returns: bytes, 0, -1 with `EINTR` or `EAGAIN`, or -1. -/
inductive Read where
  | data (buf : List UInt8)
  | eof
  | again
  | error
  deriving DecidableEq, Repr

inductive PollingStatus where
  | reading
  | writing
  | failed
  | ok
  deriving DecidableEq, Repr

/-- What libpq does for one request: whether `PQconnectStart` gives a bad
connection, what `PQconnectPoll` returns time after time, the socket of the
connection made, and whether `PQsendQueryParams` succeeds. -/
structure Libpq where
  bad : Bool
  polls : List PollingStatus
  sock : Fd
  sent : Bool
  deriving DecidableEq, Repr

-- ---------------------------------------------------------------------------
-- Descriptors, registrations and the heap
-- ---------------------------------------------------------------------------

namespace Server

def note (s : Server) (who : Actor) (act : Act) : Server := { s with log := s.log ++ [⟨who, act⟩] }

def openFile (s : Server) (fd : Fd) (file : File) : Server :=
  { s with files := Function.update s.files fd (some file) }

/-- `write`; on a descriptor that is not open it fails. -/
def write (s : Server) (who : Actor) (fd : Fd) (bytes : List UInt8) : Server :=
  match s.files fd with
  | none => s
  | some file => s.note who (.write file bytes)

def close (s : Server) (who : Actor) (fd : Fd) : Server :=
  match s.files fd with
  | none => s
  | some file => { s with files := Function.update s.files fd none }.note who (.close file)

/-- `picoev_init(1048576 + 10)`. -/
def maxFd : Int := 1048576 + 10

/-- `PICOEV_IS_INITED_AND_FD_IN_RANGE`. -/
def InRange (fd : Fd) : Prop := 0 ≤ fd ∧ fd < maxFd

instance (fd : Fd) : Decidable (InRange fd) := inferInstanceAs (Decidable (_ ∧ _))

/-- `picoev_add` with its assertions. -/
def picoevAdd (s : Server) (fd : Fd) (callback : Callback) : Except Stop Server :=
  if InRange fd ∧ s.fds fd = none then
    .ok { s with fds := Function.update s.fds fd (some callback) }
  else .error .abort

/-- `picoev_del` with its assertions, on the select backend. -/
def picoevDel (s : Server) (who : Actor) (fd : Fd) : Except Stop Server :=
  if InRange fd ∧ s.fds fd ≠ none then
    .ok ({ s with fds := Function.update s.fds fd none }.note who (.del (s.files fd)))
  else .error .abort

/-- `malloc(sizeof(client_t))`; addresses are not used twice. -/
def malloc (s : Server) : Nat × Server :=
  (s.nextPtr,
    { s with heap := Function.update s.heap s.nextPtr (some .fresh), nextPtr := s.nextPtr + 1 })

def store (s : Server) (p : Nat) (c : Client) : Server :=
  { s with heap := Function.update s.heap p (some (.client c)) }

def load (s : Server) (p : Nat) : Except Stop Client :=
  match s.heap p with
  | some (.client c) => .ok c
  | _ => .error .badPointer

def free (s : Server) (p : Nat) : Except Stop Server :=
  if s.heap p = none then .error .badPointer
  else .ok { s with heap := Function.update s.heap p none }

/-- The connection a descriptor stands for, if for any. -/
def connAt (s : Server) (fd : Fd) : Nat :=
  match s.files fd with
  | some (.conn id) => id
  | _ => 0

-- ---------------------------------------------------------------------------
-- The database
-- ---------------------------------------------------------------------------

end Server

/-- The template `send_conn` takes for a zoom. -/
def template (z : Int) : Template :=
  if z < 11 then .lowz
  else if z < 13 then .simpmidz
  else if z < -1 then .midz
  else if z < 18 then .highz
  else .streetz

/-- The `do .. while` over `PQconnectPoll`: the status it ends with, if it
ends. -/
def pollLoop : List PollingStatus → Option PollingStatus
  | [] => none
  | status :: polls => if status ≠ .failed ∧ status ≠ .ok then pollLoop polls else some status

namespace Server

/-- A new `PGconn`; a socket of its own comes with it if one is given. -/
def addPg (s : Server) (pg : PgConn) : Server :=
  { s with
    files := if 0 ≤ pg.sock then Function.update s.files pg.sock (some (.db s.nextPg)) else s.files
    pgs := Function.update s.pgs s.nextPg (some pg)
    nextPg := s.nextPg + 1 }

/-- `send_conn`: the address of the `PGconn` it sets `client->conn` to. -/
def sendConn (s : Server) (tile : Tms) (bbox : Bbox) (db : Libpq) : Except Stop (Nat × Server) :=
  let s := { s with bufs := s.bufs + 2 }
  if db.bad then .ok (s.nextPg, s.addPg ⟨-1, none⟩)
  else
    match pollLoop db.polls with
    | none => .error .hang
    | some status =>
      let pg : PgConn :=
        if status = .ok then ⟨db.sock, if db.sent then some (template tile.z, bbox) else none⟩
        else ⟨-1, none⟩
      .ok (s.nextPg, { s.addPg pg with bufs := s.bufs - 2 })

def pqSocket (s : Server) (conn : Nat) : Fd :=
  match s.pgs conn with
  | none => -1
  | some pg => pg.sock

def pqFinish (s : Server) (who : Actor) (conn : Nat) : Except Stop Server :=
  match s.pgs conn with
  | none => .error .badPointer
  | some pg =>
    let s := if 0 ≤ pg.sock then s.close who pg.sock else s
    .ok { s with pgs := Function.update s.pgs conn none }

-- ---------------------------------------------------------------------------
-- The callbacks
-- ---------------------------------------------------------------------------

/-- The exit of `read_cb` at `CLOSE`. -/
def closeExit (s : Server) (who : Actor) (fd : Fd) (client : Nat) : Except Stop Server := do
  let s ← s.picoevDel who fd
  let s := s.close who fd
  s.free client

def resHead : List UInt8 :=
  ascii ("HTTP/1.1 200 OK\r\n" ++ "Content-Type: application/octet-stream\r\n" ++
    "Transfer-Encoding: chunked\r\n" ++ "\r\n")

/-- `read_cb`; `behind` is what memory holds behind the bytes read. -/
def readCb (s : Server) (fd : Fd) (r : Read) (behind : List UInt8) (db : Libpq) :
    Except Stop Server :=
  let origin := s.connAt fd
  let who := Actor.readCb origin
  let (client, s) := s.malloc
  match r with
  | .eof => s.closeExit who fd client
  | .again => .ok s
  | .error => s.closeExit who fd client
  | .data buf =>
    match parseRead buf with
    | .error _ => .error .abort
    | .ok (request, _) =>
      let s := s.write who fd resHead
      match tokenLoop ((buf ++ behind).drop request.pathOff) with
      | .close => s.closeExit who fd client
      | .tile n => do
        let tile := n.tile
        let bbox := tms2bbox tile
        let (conn, s) ← s.sendConn tile bbox db
        let dbfd := s.pqSocket conn
        let s := s.store client { fd, bbox, tile, dbfd, conn, origin }
        s.picoevAdd dbfd (.dbBinCb client)

/-- `accept_cb`; `newfd` is what `accept` returns. -/
def acceptCb (s : Server) (newfd : Fd) : Except Stop Server :=
  if newfd = -1 then .ok s
  else
    let s := { s.openFile newfd (.conn s.nextConn) with nextConn := s.nextConn + 1 }
    s.picoevAdd newfd .readCb

section
variable (scale : Scale) (junk : Nat → UInt8) (fuel : Nat)

/-- What `fmt_res_bin` writes: the size line, the records, the trailer. -/
def tileWrites (strm : Stream) : List (List UInt8) :=
  [hex (strm.size % 2 ^ 32).toNat ++ ascii "\r\n", strm.strm.take strm.size.toNat,
    ascii "\r\n0\r\n\r\n"]

/-- `fmt_res_bin`, for a row loop of so many iterations a row. -/
def fmtResBin (s : Server) (client : Nat) (rows : List Row) : Except Stop Server := do
  let c ← s.load client
  let who := Actor.fmtResBin c.origin c.conn
  match rows with
  | [] =>
    let s := s.write who c.fd (ascii "0\r\n\r\n")
    let s ← s.pqFinish who c.conn
    let s ← s.picoevDel who c.fd
    let s ← s.picoevDel who c.dbfd
    let s := s.close who c.fd
    s.free client
  | rows =>
    match fmtRows scale c.tile fuel rows ⟨0, 0, Canvasback.malloc junk (chunkCnt rows)⟩ with
    | .error fault => .error (.rows fault)
    | .ok strm =>
      let s := (tileWrites strm).foldl (fun s bytes => s.write who c.fd bytes) s
      let s ← s.pqFinish who c.conn
      let s := s.close who c.fd
      let s ← s.picoevDel who c.fd
      let s ← s.picoevDel who c.dbfd
      s.free client

def dbBinCb (s : Server) (cbArg : Nat) (rows : List Row) : Except Stop Server :=
  s.fmtResBin scale junk fuel cbArg rows

end

end Server

-- ---------------------------------------------------------------------------
-- Events
-- ---------------------------------------------------------------------------

/-- What wakes the loop up: the listening socket, a client's socket, a database
socket. -/
inductive Event where
  | accept (newfd : Fd)
  | readable (fd : Fd) (r : Read) (behind : List UInt8) (db : Libpq)
  | reply (fd : Fd) (rows : List Row)

/-- A number the system may give to a new descriptor. -/
def Server.Unused (s : Server) (fd : Fd) : Prop := Server.InRange fd ∧ s.files fd = none

/-- `read` gives no more than the buffer holds, and 0 bytes for a hang-up only. -/
def Read.Fits : Read → Prop
  | .data buf => buf ≠ [] ∧ buf.length ≤ bufSize
  | _ => True

def Server.Enabled (s : Server) : Event → Prop
  | .accept newfd =>
    (∃ fd, s.files fd = some .listen ∧ s.fds fd = some .acceptCb) ∧ (newfd = -1 ∨ s.Unused newfd)
  | .readable fd r _ db =>
    (∃ id, s.files fd = some (.conn id)) ∧ s.fds fd = some .readCb ∧ r.Fits ∧
      (db.bad = false → pollLoop db.polls = some .ok → s.Unused db.sock)
  | .reply fd _ => (∃ pg, s.files fd = some (.db pg)) ∧ ∃ client, s.fds fd = some (.dbBinCb client)

/-- The loop calls what is registered for the descriptor that woke it up. -/
def Server.step (scale : Scale) (junk : Nat → UInt8) (fuel : Nat) (s : Server) :
    Event → Except Stop Server
  | .accept newfd => s.acceptCb newfd
  | .readable fd r behind db => s.readCb fd r behind db
  | .reply fd rows =>
    match s.fds fd with
    | some (.dbBinCb client) => s.dbBinCb scale junk fuel client rows
    | _ => .ok s

def server (scale : Scale) (junk : Nat → UInt8) (fuel : Nat) : System Server Event Stop where
  enabled := Server.Enabled
  step := Server.step scale junk fuel

section
variable (scale : Scale) (junk : Nat → UInt8) (fuel : Nat) (s : Server)

theorem server_accept (newfd : Fd) :
    (server scale junk fuel).step s (.accept newfd) = s.acceptCb newfd := rfl

theorem server_readable (fd : Fd) (r : Read) (behind : List UInt8) (db : Libpq) :
    (server scale junk fuel).step s (.readable fd r behind db) = s.readCb fd r behind db := rfl

theorem server_reply {client : Nat} (h : s.fds fd = some (.dbBinCb client)) (rows : List Row) :
    (server scale junk fuel).step s (.reply fd rows) =
      s.fmtResBin scale junk fuel client rows := by
  simp only [server, Server.step, h, Server.dbBinCb]

end

/-- `main`, at its loop. -/
def Server.init (listenSock : Fd) : Server where
  files := Function.update (fun _ => none) listenSock (some .listen)
  fds := Function.update (fun _ => none) listenSock (some .acceptCb)
  heap _ := none
  pgs _ := none
  bufs := 0
  nextConn := 0
  nextPtr := 0
  nextPg := 0
  log := []

end Canvasback
