import Canvasback.FmtRes.RoundTrip
import Canvasback.Server.Sound

/-!
# One response to a request

The head goes out before the path is looked at; what follows it is the body
`fmt_res_bin` writes, or nothing if the connection is closed first. The body
of a tile is one chunk and the last chunk. An empty tile is no chunk: its size
line closes the body, and what is written behind it is left over.
-/

namespace Canvasback

open Runs Server CString Chunked Memory

section
variable (scale : Scale) (junk : Nat → UInt8) (fuel : Nat)

/-- Behind the head, `bytes` and nothing else is sent to the connection until
it is closed, whatever is done for others until the result comes. -/
def Server.Responds (s : Server) (fd : Fd) (r : Read) (behind : List UInt8) (db : Libpq)
    (rows : List Row) (bytes : List UInt8) : Prop :=
  ∃ file s', s.files fd = some file ∧ s.readCb fd r behind db = .ok s' ∧
    ((s'.files fd = none ∧ s'.sent file = s.sent file ++ (resHead ++ bytes)) ∨
      ∃ p c, s'.files fd = some file ∧ s'.fds c.dbfd = some (.dbBinCb p) ∧
        s'.heap p = some (.client c) ∧ c.fd = fd ∧ c.dbfd = db.sock ∧
        ∀ t, s'.Keeps t p c → t.sent file = s'.sent file →
          ∃ t', t.step scale junk fuel (.reply c.dbfd rows) = .ok t' ∧ t'.files fd = none ∧
            t'.sent file = s.sent file ++ (resHead ++ bytes))

end

/-- The records of the result, for the tile asked for. -/
def Reading.stream (q : Reading) (scale : Scale) (rows : List TreeRow) : List UInt8 :=
  match q.outcome with
  | .close => []
  | .tile n => (records scale n.tile rows).flatMap Record.encode

/-- What is sent is one chunked body, and its data are the records. -/
def Server.Completes (s : Server) (scale : Scale) (junk : Nat → UInt8) (fd : Fd) (q : Reading)
    (db : Libpq) (rows : List TreeRow) : Prop :=
  ∃ least, ∀ fuel, least ≤ fuel → ∃ bytes,
    s.Responds scale junk fuel fd (.data q.data) q.behind db (rows.map TreeRow.row) bytes ∧
    decode bytes = some (q.stream scale rows, [])

-- ---------------------------------------------------------------------------
-- What follows the head
-- ---------------------------------------------------------------------------

section
variable {s s' t : Server} {fd : Fd} {q : Reading} {db : Libpq} {n : Longs} {scale : Scale}
  {junk : Nat → UInt8} {fuel id : Nat} {listenSock : Fd}

theorem Reading.head (q : Reading) : (Read.data q.data).head = [resHead] := by
  simp only [Read.head, q.accepted]

/-- Nothing, where the loop closes the connection. -/
theorem responds_close (h : s.Sound) {rows : List Row}
    (he : s.Enabled (.readable fd (.data q.data) q.behind db)) (hq : q.outcome = .close) :
    s.Responds scale junk fuel fd (.data q.data) q.behind db rows bytes ↔ bytes = [] := by
  obtain ⟨⟨id, hconn⟩, hf, -⟩ := he
  have hreg : s.fds fd ≠ none := by simp [hf]
  obtain ⟨log, hok, htrace⟩ := readCb_close db (Read.verdict_close q.accepted hq) (h.range hreg) hreg
  have hsent : (s.hungUp fd log).sent (.conn id) = s.sent (.conn id) ++ resHead := by
    rw [htrace.sent_eq rfl, if_pos hconn, q.head, List.flatten_singleton]
  constructor
  · rintro ⟨file, s', hfile, hok', hout⟩
    rw [hok, Except.ok.injEq] at hok'
    subst hok'
    rw [hconn, Option.some.injEq] at hfile
    subst hfile
    rcases hout with ⟨-, hbytes⟩ | ⟨p, c, hopen, -⟩
    · rw [hsent] at hbytes
      simpa using hbytes
    · simp at hopen
  · rintro rfl
    exact ⟨_, _, hconn, hok, .inl ⟨by simp, by simpa using hsent⟩⟩

/-- What `fmt_res_bin` writes, where a query goes out. -/
theorem responds_query (h : s.Sound) {rows : List Row}
    (he : s.Enabled (.readable fd (.data q.data) q.behind db)) (hdb : db.Connects)
    (hq : q.outcome = .tile n) :
    s.Responds scale junk fuel fd (.data q.data) q.behind db rows bytes ↔
      ∃ writes, body scale junk fuel n.tile rows = .ok writes ∧ bytes = writes.flatten := by
  obtain ⟨⟨id, hconn⟩, hf, -, hu⟩ := he
  have hn := hu hdb.1 hdb.2
  have hfree := h.unregistered hn.2
  have hne : fd ≠ db.sock := by
    rintro rfl
    rw [hfree] at hf
    cases hf
  obtain ⟨log, hok, htrace⟩ := readCb_query s fd (Read.verdict_query q.accepted hq) hdb hn.1 hfree
  have hsent : (s.asked fd n db log).sent (.conn id) = s.sent (.conn id) ++ resHead := by
    rw [htrace.sent_eq rfl, if_pos hconn, q.head, List.flatten_singleton]
  have hopen : (s.asked fd n db log).files fd = some (.conn id) := by
    rw [asked_files, if_neg hne, hconn]
  have hans {t : Server} (hk : (s.asked fd n db log).Keeps t s.nextPtr (s.newClient fd n db))
      (ht : t.sent (.conn id) = (s.asked fd n db log).sent (.conn id)) {writes : List (List UInt8)}
      (hb : body scale junk fuel n.tile rows = .ok writes) : ∃ log',
      t.step scale junk fuel (.reply db.sock rows) =
        .ok (t.answered s.nextPtr (s.newClient fd n db) log') ∧
      (t.answered s.nextPtr (s.newClient fd n db) log').sent (.conn id) =
        s.sent (.conn id) ++ (resHead ++ writes.flatten) := by
    obtain ⟨log', hok', htrace'⟩ := asked_reply h hf hn hk hb
    refine ⟨log', hok', ?_⟩
    rw [htrace'.sent_eq rfl, if_pos (hk.conn.1.trans hopen), ht, hsent, List.append_assoc]
  constructor
  · rintro ⟨file, s', hfile, hok', hout⟩
    rw [hok, Except.ok.injEq] at hok'
    subst hok'
    rw [hconn, Option.some.injEq] at hfile
    subst hfile
    rcases hout with ⟨hclosed, -⟩ | ⟨p, c, -, hp, hc, -, hdbfd, hrun⟩
    · rw [hopen] at hclosed
      cases hclosed
    · -- the client is the one just made
      rw [hdbfd, asked_fds, if_pos rfl, Option.some.injEq, Callback.dbBinCb.injEq] at hp
      subst hp
      rw [asked_heap, if_pos rfl, Option.some.injEq, Cell.client.injEq] at hc
      subst hc
      have hk : (s.asked fd n db log).Keeps (s.asked fd n db log) s.nextPtr
          (s.newClient fd n db) := ⟨rfl, rfl, ⟨rfl, rfl⟩, ⟨rfl, rfl⟩⟩
      obtain ⟨t', hstep, -, hbytes⟩ := hrun _ hk rfl
      have hfds : (s.asked fd n db log).fds db.sock = some (.dbBinCb s.nextPtr) := by simp
      have hinv := hstep
      simp only [Server.step, hfds, dbBinCb] at hinv
      obtain ⟨c, writes, hc, hb, -⟩ := Server.fmtResBin_inv hinv
      rw [asked_heap, if_pos rfl, Option.some.injEq, Cell.client.injEq] at hc
      subst hc
      obtain ⟨log', hok', hsent'⟩ := hans hk rfl hb
      rw [hok', Except.ok.injEq] at hstep
      subst hstep
      rw [hsent'] at hbytes
      exact ⟨writes, hb, by simpa using hbytes.symm⟩
  · rintro ⟨writes, hb, rfl⟩
    refine ⟨_, _, hconn, hok, .inr ⟨s.nextPtr, s.newClient fd n db, hopen, by simp, by simp, rfl,
      rfl, fun t hk ht => ?_⟩⟩
    obtain ⟨log', hok', hsent'⟩ := hans hk ht hb
    exact ⟨_, hok', by simp, hsent'⟩

end

-- ---------------------------------------------------------------------------
-- Bodies
-- ---------------------------------------------------------------------------

section
variable {scale : Scale} {junk : Nat → UInt8} {tile : Tms} {rows : List TreeRow} {fuel : Nat}
  {fd listenSock : Fd} {db : Libpq} {n : Longs}

theorem body_of_ne_nil (scale : Scale) (junk : Nat → UInt8) (fuel : Nat) (tile : Tms)
    {rows : List Row} (hne : rows ≠ []) : body scale junk fuel tile rows =
      match fmtRows scale tile fuel rows ⟨0, 0, Canvasback.malloc junk (chunkCnt rows)⟩ with
      | .error fault => .error (.rows fault)
      | .ok strm => .ok (tileWrites strm) := by
  cases rows with
  | nil => exact absurd rfl hne
  | cons row rows => rfl

/-- The writes for rows there is room for: a size, the records, and the end of a
body. -/
theorem body_fits (junk : Nat → UInt8) (hw : ∀ t ∈ rows, t.Walkable) (hfit : Roomy rows)
    (hne : rows ≠ []) (hf : totalLength rows ≤ fuel) :
    ∃ writes, body scale junk fuel tile (rows.map TreeRow.row) = .ok writes ∧
      writes.flatten = chunk ((records scale tile rows).flatMap Record.encode) ++ lastChunk := by
  have hroom := (roomy_records scale tile rows).mp hfit
  have hcnt := chunkCnt_lt rows
  obtain ⟨strm, he, hsize, htake⟩ := @emit_fits scale tile rows
    (Canvasback.malloc junk (chunkCnt (rows.map TreeRow.row))) (by simpa using hroom)
    (by simpa using hcnt)
  have hrun := @fmtRows_emit scale tile rows
    (Canvasback.malloc junk (chunkCnt (rows.map TreeRow.row))) fuel hw (by simpa using hcnt) hf
  have hhex : (strm.size % 2 ^ 32).toNat =
      ((records scale tile rows).flatMap Record.encode).length := by omega
  refine ⟨tileWrites strm, ?_, ?_⟩
  · rw [body_of_ne_nil _ _ _ _ (by simpa using hne), hrun, he]
  · simp only [tileWrites, hhex, htake, List.flatten_cons, List.flatten_nil]
    rw [show ascii "\r\n0\r\n\r\n" = crlf ++ lastChunk by decide,
      show ascii "\r\n" = crlf by decide]
    simp only [chunk, List.append_assoc, List.append_nil]

theorem body_overflow (junk : Nat → UInt8) (hw : ∀ t ∈ rows, t.Walkable) (hfit : ¬ Roomy rows)
    (hf : totalLength rows ≤ fuel) :
    body scale junk fuel tile (rows.map TreeRow.row) = .error (.rows .badWrite) := by
  have hne : rows ≠ [] := by
    rintro rfl
    exact hfit (by decide)
  have hcnt := chunkCnt_lt rows
  rw [roomy_records scale tile] at hfit
  rw [body_of_ne_nil _ _ _ _ (by simpa using hne), fmtRows_emit hw (by simpa using hcnt) hf,
    Stream.emit, Stream.off, put_overflow]
  · rfl
  · simp only [malloc_length]
    omega

/-- On rows the cursor gets through, `fmt_res_bin` comes to its writes exactly
if there is room for the records. -/
theorem body_ok_iff (scale : Scale) (junk : Nat → UInt8) (tile : Tms)
    (hw : ∀ t ∈ rows, t.Walkable) (hf : totalLength rows ≤ fuel) :
    (∃ writes, body scale junk fuel tile (rows.map TreeRow.row) = .ok writes) ↔ Roomy rows := by
  constructor
  · rintro ⟨writes, hb⟩
    by_contra hfit
    rw [body_overflow junk hw hfit hf] at hb
    cases hb
  · intro hfit
    rcases eq_or_ne rows [] with rfl | hne
    · exact ⟨_, rfl⟩
    · obtain ⟨writes, hb, -⟩ := @body_fits scale tile rows _ junk hw hfit hne hf
      exact ⟨writes, hb⟩

theorem body_ne_nil {rows : List Row} {writes : List (List UInt8)}
    (h : body scale junk fuel tile rows = .ok writes) : writes ≠ [] := by
  rintro rfl
  cases rows with
  | nil => cases h
  | cons row rows =>
    simp only [body] at h
    split at h
    · cases h
    · cases h

theorem records_eq_nil : (records scale tile rows).flatMap Record.encode = [] ↔
    ∀ t ∈ rows, t.geom.leaves = [] := by
  constructor
  · intro h t ht
    by_contra hl
    obtain ⟨l, hl⟩ := List.exists_mem_of_ne_nil _ hl
    have hr : leafRecord scale tile (stylenum tile t.style) l ∈ records scale tile rows :=
      List.mem_flatMap.mpr ⟨t, ht, List.mem_map.mpr ⟨l, hl, rfl⟩⟩
    have hnil := List.flatMap_eq_nil_iff.mp h _ hr
    have hlen := Record.encode_length (leafRecord scale tile (stylenum tile t.style) l)
    rw [hnil] at hlen
    simp at hlen
    omega
  · intro h
    have hnil : records scale tile rows = [] := by
      refine List.flatMap_eq_nil_iff.mpr fun t ht => ?_
      rw [TreeRow.records, h t ht]
      rfl
    rw [hnil]
    rfl

/-- A size line of zero closes the body, and five bytes are left over. -/
theorem decode_empty : decode (chunk [] ++ lastChunk) = some ([], lastChunk) := by decide

/-- A closed connection is left with a head and no body. -/
theorem not_completes_close {s : Server} {q : Reading} (h : s.Sound)
    (he : s.Enabled (.readable fd (.data q.data) q.behind db)) (hq : q.outcome = .close) :
    ¬ s.Completes scale junk fd q db rows := by
  rintro ⟨least, hall⟩
  obtain ⟨bytes, hresp, hdec⟩ := hall least le_rfl
  rw [(responds_close h he hq).mp hresp] at hdec
  cases hdec

theorem completes_query {s : Server} {q : Reading} (h : s.Sound)
    (he : s.Enabled (.readable fd (.data q.data) q.behind db)) (hdb : db.Connects)
    (hq : q.outcome = .tile n) (hw : ∀ t ∈ rows, t.Walkable) :
    s.Completes scale junk fd q db rows ↔
      rows = [] ∨ Roomy rows ∧ ∃ t ∈ rows, t.geom.leaves ≠ [] := by
  have hstream : q.stream scale rows = (records scale n.tile rows).flatMap Record.encode := by
    simp only [Reading.stream, hq]
  constructor
  · rintro ⟨least, hall⟩
    by_cases hne : rows = []
    · exact .inl hne
    obtain ⟨bytes, hresp, hdec⟩ := hall (max least (totalLength rows)) (le_max_left _ _)
    obtain ⟨writes, hb, rfl⟩ := (responds_query h he hdb hq).mp hresp
    by_cases hfit : Roomy rows
    · refine .inr ⟨hfit, ?_⟩
      by_contra hnone
      obtain ⟨writes', hb', hflat⟩ := @body_fits scale n.tile rows _ junk hw hfit hne
        (le_max_right least _)
      rw [hb', Except.ok.injEq] at hb
      subst hb
      rw [hflat, records_eq_nil.mpr (by simpa using hnone), decode_empty] at hdec
      simp [lastChunk] at hdec
    · rw [body_overflow junk hw hfit (le_max_right _ _)] at hb
      cases hb
  · intro hrows
    refine ⟨totalLength rows, fun fuel' hf => ?_⟩
    rcases hrows with rfl | ⟨hfit, t, ht, hl⟩
    · refine ⟨lastChunk, (responds_query h he hdb hq).mpr ⟨[lastChunk], ?_, rfl⟩, ?_⟩
      · exact congrArg (fun x => Except.ok [x]) (show ascii "0\r\n\r\n" = lastChunk by decide)
      · rw [hstream]
        rfl
    · obtain ⟨writes, hb, hflat⟩ := @body_fits scale n.tile rows _ junk hw hfit
        (List.ne_nil_of_mem ht) hf
      refine ⟨_, (responds_query h he hdb hq).mpr ⟨writes, hb, rfl⟩, ?_⟩
      have hdata : (records scale n.tile rows).flatMap Record.encode ≠ [] := by
        intro hnil
        exact hl (records_eq_nil.mp hnil t ht)
      have henc : decode (encode [(records scale n.tile rows).flatMap Record.encode] ++ []) = _ :=
        decode_encode (by simpa using hdata) []
      rw [hstream, hflat]
      simpa [encode] using henc

/-- **One complete response.** A request the parser accepts is answered by
exactly one body with the records of its result if the loop does not close the
connection and the result has no rows, or records and room for them in a buffer
of `chunk_cnt` bytes, and in no other case. -/
theorem completes_iff {s : Server} {q : Reading} (hr : Server.InRange listenSock)
    (hs : Reachable (server scale junk fuel) (Server.init listenSock) s)
    (he : s.Enabled (.readable fd (.data q.data) q.behind db)) (hdb : db.Connects)
    (hw : ∀ t ∈ rows, t.Walkable) :
    s.Completes scale junk fd q db rows ↔
      ¬ q.TooMany ∧ (rows = [] ∨ Roomy rows ∧ ∃ t ∈ rows, t.geom.leaves ≠ []) := by
  have h := sound_of_reachable hr hs
  rw [Reading.TooMany, ← tokenLoop_close]
  change s.Completes scale junk fd q db rows ↔ ¬ q.outcome = .close ∧ _
  cases hq : q.outcome with
  | close => simpa using not_completes_close h he hq
  | tile n => simpa using completes_query h he hdb hq hw

end

-- ---------------------------------------------------------------------------
-- A tile of nothing, and one of a line
-- ---------------------------------------------------------------------------

def tileReading : Reading where
  data := ascii "GET /tms,3,2,1 HTTP/1.1\r\n\r\n"
  behind := []
  request := ⟨ascii "GET", ascii "/tms,3,2,1", 4, 1, []⟩
  n := 27
  fits := by decide
  accepted := by decide +kernel

def nothing : TreeRow := ⟨.collection [], ascii "path", fun _ => none⟩

def something : TreeRow := ⟨.lineString [(0, 0)], ascii "path", fun _ => none⟩

theorem response_incomplete : Reachable plainServer (Server.init 3) oneConn ∧
    oneConn.Enabled (.readable 5 (.data tileReading.data) tileReading.behind (newDb 6)) ∧
    ¬ oneConn.Completes (fun _ _ _ => 0) (fun _ => 0) 5 tileReading (newDb 6) [nothing] := by
  have hq : tileReading.outcome = .tile ⟨3, 2, 1⟩ := by decide +kernel
  have hw : ∀ t ∈ [nothing], t.Walkable := by
    simp only [List.mem_singleton, forall_eq]
    exact ⟨trivial, by decide⟩
  refine ⟨oneConn_reachable, oneConn_request_enabled, fun h => ?_⟩
  rw [completes_query (sound_of_reachable (by decide) oneConn_reachable) oneConn_request_enabled
    (by decide) hq hw] at h
  rcases h with h | ⟨-, t, ht, hl⟩
  · cases h
  · rw [List.mem_singleton.mp ht] at hl
    exact hl rfl

theorem completes_oneConn :
    oneConn.Completes (fun _ _ _ => 0) (fun _ => 0) 5 tileReading (newDb 6) [something] := by
  have hw : ∀ t ∈ [something], t.Walkable := by
    simp only [List.mem_singleton, forall_eq]
    exact ⟨trivial, by decide⟩
  refine (completes_iff (by decide) oneConn_reachable oneConn_request_enabled (by decide)
    hw).mpr ⟨?_, .inr ⟨by decide, something, by simp, by decide⟩⟩
  rintro ⟨-, hmany⟩
  exact absurd hmany (by decide +kernel)

end Canvasback
