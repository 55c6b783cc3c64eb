import Canvasback.Lib.Delivery
import Canvasback.Server.Callbacks

/-!
# Short writes

Client sockets do not block, so a write may take less than it is given, and
`fmt_res_bin` looks at no result. What arrives is a front of the response
exactly if the socket, once it has been full, takes nothing of the writes that
are left.
-/

namespace Canvasback

open CString Delivery Runs

namespace Server

section
variable (scale : Scale) (junk : Nat → UInt8) (fuel : Nat)

/-- `write` with what it returns. -/
def tryWrite (s : Server) (who : Actor) (fd : Fd) (a : Attempt UInt8) : Server :=
  s.write who fd a.taken

/-- `fmt_res_bin` when its `i`-th write returns `results i`. -/
def fmtResBinShort (s : Server) (client : Nat) (rows : List Row) (results : Nat → WriteResult) :
    Except Stop Server := do
  let c ← s.load client
  let who := Actor.fmtResBin c.origin c.conn
  match rows with
  | [] =>
    let s := s.tryWrite who c.fd ⟨ascii "0\r\n\r\n", results 0⟩
    let s ← s.pqFinish who c.conn
    let s ← s.picoevDel who c.fd
    let s ← s.picoevDel who c.dbfd
    let s := s.close who c.fd
    s.free client
  | rows =>
    match fmtRows scale c.tile fuel rows ⟨0, 0, Canvasback.malloc junk (chunkCnt rows)⟩ with
    | .error fault => .error (.rows fault)
    | .ok strm =>
      let s := (attempts (tileWrites strm) results).foldl (fun s a => s.tryWrite who c.fd a) s
      let s ← s.pqFinish who c.conn
      let s := s.close who c.fd
      let s ← s.picoevDel who c.fd
      let s ← s.picoevDel who c.dbfd
      s.free client

end

-- ---------------------------------------------------------------------------
-- What is sent
-- ---------------------------------------------------------------------------

section
variable {s s' : Server} {who : Actor} {fd : Fd} {file : File} {p : Nat}

theorem write_sent (who : Actor) (hfile : s.files fd = some file) (bytes : List UInt8) :
    (s.write who fd bytes).sent file = s.sent file ++ bytes ∧
      (s.write who fd bytes).files fd = some file := by
  refine ⟨?_, by rw [write_eq]; exact hfile⟩
  simp [write_eq, sent, writeLog, hfile, Entry.bytesTo]

theorem tryWrites_sent (as : List (Attempt UInt8)) (hfile : s.files fd = some file) :
    (as.foldl (fun s a => s.tryWrite who fd a) s).sent file =
      s.sent file ++ as.flatMap Attempt.taken := by
  induction as generalizing s with
  | nil => simp
  | cons a as ih =>
    obtain ⟨hsent, hfile'⟩ := write_sent who hfile a.taken
    rw [List.foldl_cons, tryWrite, ih hfile', hsent, List.flatMap_cons, List.append_assoc]

theorem close_sent : (s.close who fd).sent file = s.sent file := by
  rw [close_eq, sent, List.flatMap_append, closeLog]
  cases s.files fd <;> simp [sent, Entry.bytesTo]

theorem picoevDel_sent (h : s.picoevDel who fd = .ok s') : s'.sent file = s.sent file := by
  obtain ⟨-, rfl⟩ := picoevDel_inv h
  simp [sent, Entry.bytesTo]

theorem pqFinish_sent {conn : Nat} (h : s.pqFinish who conn = .ok s') :
    s'.sent file = s.sent file := by
  unfold pqFinish at h
  split at h
  · cases h
  · rename_i pg _
    rw [← Except.ok.inj h]
    change (if 0 ≤ pg.sock then s.close who pg.sock else s).sent file = s.sent file
    split
    · exact close_sent
    · rfl

theorem free_sent (h : s.free p = .ok s') : s'.sent file = s.sent file := by
  unfold free at h
  split at h
  · cases h
  · rw [← Except.ok.inj h]
    rfl

end

section
variable {scale : Scale} {junk : Nat → UInt8} {fuel : Nat} {s s' : Server} {p : Nat} {c : Client}
  {rows : List Row} {results : Nat → WriteResult} {writes : List (List UInt8)} {file : File}

/-- `fmt_res_bin` sends what its writes take, and nothing else. -/
theorem fmtResBinShort_sent (hc : s.heap p = some (.client c)) (hfile : s.files c.fd = some file)
    (hb : body scale junk fuel c.tile rows = .ok writes)
    (h : s.fmtResBinShort scale junk fuel p rows results = .ok s') :
    s'.sent file = s.sent file ++ (attempts writes results).flatMap Attempt.taken := by
  obtain ⟨c', hload, h⟩ := bind_eq_ok.mp h
  obtain rfl : c' = c := by simpa [hc] using (load_inv hload).symm
  cases rows with
  | nil =>
    obtain rfl := Except.ok.inj hb
    obtain ⟨s₁, h₁, h⟩ := bind_eq_ok.mp h
    obtain ⟨s₂, h₂, h⟩ := bind_eq_ok.mp h
    obtain ⟨s₃, h₃, h⟩ := bind_eq_ok.mp h
    rw [free_sent h, close_sent, picoevDel_sent h₃, picoevDel_sent h₂, pqFinish_sent h₁]
    exact tryWrites_sent (attempts [ascii "0\r\n\r\n"] results) hfile
  | cons row rows =>
    simp only [body] at hb
    simp only at h
    split at hb
    · cases hb
    · rename_i strm hrun
      obtain rfl := Except.ok.inj hb
      rw [hrun] at h
      obtain ⟨s₁, h₁, h⟩ := bind_eq_ok.mp h
      obtain ⟨s₂, h₂, h⟩ := bind_eq_ok.mp h
      obtain ⟨s₃, h₃, h⟩ := bind_eq_ok.mp h
      rw [free_sent h, picoevDel_sent h₃, picoevDel_sent h₂, close_sent, pqFinish_sent h₁]
      exact tryWrites_sent _ hfile

theorem tryWrites_full (s : Server) (who : Actor) (fd : Fd) (writes : List (List UInt8))
    (hfull : ∀ a ∈ attempts writes results, ¬ a.Short) :
    (attempts writes results).foldl (fun s a => s.tryWrite who fd a) s =
      writes.foldl (fun s bytes => s.write who fd bytes) s := by
  have hbytes : (attempts writes results).map Attempt.taken = writes := by
    rw [List.map_congr_left fun a ha => Attempt.taken_of_full (hfull a ha)]
    exact attempts_bytes writes results
  conv_rhs => rw [← hbytes, List.foldl_map]
  rfl

/-- If no write is cut short this is `fmt_res_bin` as it stands. -/
theorem fmtResBinShort_full (hc : s.heap p = some (.client c))
    (hb : body scale junk fuel c.tile rows = .ok writes)
    (hfull : ∀ a ∈ attempts writes results, ¬ a.Short) :
    s.fmtResBinShort scale junk fuel p rows results = s.fmtResBin scale junk fuel p rows := by
  have hload : s.load p = .ok c := by simp only [load, hc]
  unfold fmtResBinShort fmtResBin
  rw [hload]
  cases rows with
  | nil =>
    obtain rfl := Except.ok.inj hb
    have hone := tryWrites_full s (.fmtResBin c.origin c.conn) c.fd _ hfull
    simp only [attempts, List.mapIdx_cons, List.mapIdx_nil, List.foldl_cons, List.foldl_nil] at hone
    simp only [bind, Except.bind, hone]
  | cons row rows =>
    simp only [body] at hb
    split at hb
    · cases hb
    · rename_i strm hrun
      obtain rfl := Except.ok.inj hb
      simp only [bind, Except.bind, hrun]
      rw [tryWrites_full s _ c.fd _ hfull]

/-- The bytes that reach the client are a front of the response. -/
structure DeliversPrefix (s s' : Server) (file : File) (writes : List (List UInt8))
    (results : Nat → WriteResult) : Prop where
  /-- What arrives is what the fates of the bytes let through. -/
  sent : s'.sent file = s.sent file ++ kept writes.flatten (fates (attempts writes results))
  isPrefix : kept writes.flatten (fates (attempts writes results)) <+: writes.flatten
  /-- No byte arrives behind one that was dropped. -/
  inOrder : InOrder (fates (attempts writes results))

/-- **Short writes.** Of all results and all outcomes of the writes. -/
theorem deliversPrefix_iff (hc : s.heap p = some (.client c)) (hfile : s.files c.fd = some file)
    (hb : body scale junk fuel c.tile rows = .ok writes)
    (h : s.fmtResBinShort scale junk fuel p rows results = .ok s') :
    DeliversPrefix s s' file writes results ↔ Stops (attempts writes results) := by
  constructor
  · rintro ⟨-, -, hord⟩
    exact (inOrder_iff _).mp hord
  · intro hstops
    have hord := (inOrder_iff _).mpr hstops
    refine ⟨?_, hord.kept_prefix _, hord⟩
    rw [fmtResBinShort_sent hc hfile hb h, ← kept_fates, attempts_flatten]

end

end Server

-- ---------------------------------------------------------------------------
-- A full socket
-- ---------------------------------------------------------------------------

open Server

/-- The response with a line of one point. -/
def oneTile : List (List UInt8) :=
  [ascii "10\r\n", [2, 0, 0, 0, 1, 0, 0, 0, 10, 0, 0, 0, 0, 0, 0, 0], ascii "\r\n0\r\n\r\n"]

theorem oneTile_body :
    body (fun _ _ _ => 0) (fun _ => 0) 1 (Longs.tile ⟨3, 2, 1⟩) [oneLine] = .ok oneTile := by
  decide +kernel

section
variable (results : Nat → WriteResult)

/-- A request on a fresh connection, and its result. -/
def oneAnswer : Except Stop Server := do
  let s ← oneConn.readCb 5 tileRequest [] (newDb 6)
  s.fmtResBinShort (fun _ _ _ => 0) (fun _ => 0) 1 0 [oneLine] results

theorem oneAnswer_run (h : (oneAnswer results).isOk = true) : ∃ (s s' : Server),
    oneConn.readCb 5 tileRequest [] (newDb 6) = .ok s ∧
      s.heap 0 = some (.client firstClient) ∧ s.files 5 = some (.conn 0) ∧
      s.fmtResBinShort (fun _ _ _ => 0) (fun _ => 0) 1 0 [oneLine] results = .ok s' := by
  obtain ⟨log, hask⟩ := oneConn_request
  rw [server_readable] at hask
  cases hrun : oneAnswer results with
  | error e => simp [hrun, Except.isOk, Except.toBool] at h
  | ok s' =>
    refine ⟨waiting log, s', hask, rfl, rfl, ?_⟩
    simpa only [oneAnswer, hask, bind, Except.bind] using hrun

end

/-- The socket is full in the middle of the records, and stays so. -/
def fullSocket : Nat → WriteResult
  | 0 => .accepted 4
  | 1 => .accepted 10
  | _ => .again

theorem deliversPrefix_fullSocket : (∃ a ∈ attempts oneTile fullSocket, a.Short) ∧
    ∃ s s', s.fmtResBinShort (fun _ _ _ => 0) (fun _ => 0) 1 0 [oneLine] fullSocket = .ok s' ∧
      DeliversPrefix s s' (.conn 0) oneTile fullSocket := by
  obtain ⟨s, s', -, hc, hfile, h⟩ := oneAnswer_run fullSocket (by decide +kernel)
  exact ⟨by decide, s, s', h, (deliversPrefix_iff hc hfile oneTile_body h).mpr (by decide)⟩

/-- It is full for the records and has room again for the trailer. -/
def recordsAgain : Nat → WriteResult
  | 0 => .accepted 4
  | 1 => .again
  | _ => .accepted 7

/-- The trailer arrives in place of the records. -/
theorem trailer_behind_dropped :
    ∃ s s', oneConn.readCb 5 tileRequest [] (newDb 6) = .ok s ∧
      s.fmtResBinShort (fun _ _ _ => 0) (fun _ => 0) 1 0 [oneLine] recordsAgain = .ok s' ∧
      s'.sent (.conn 0) = s.sent (.conn 0) ++ ascii "10\r\n\r\n0\r\n\r\n" ∧
      ¬ ascii "10\r\n\r\n0\r\n\r\n" <+: oneTile.flatten ∧
      ¬ DeliversPrefix s s' (.conn 0) oneTile recordsAgain := by
  obtain ⟨s, s', hask, hc, hfile, h⟩ := oneAnswer_run recordsAgain (by decide +kernel)
  refine ⟨s, s', hask, h, ?_, by decide, fun hp => ?_⟩
  · rw [fmtResBinShort_sent hc hfile oneTile_body h]
    exact congrArg (s.sent (.conn 0) ++ ·) (by decide)
  · exact absurd hp.inOrder (by decide)

end Canvasback
