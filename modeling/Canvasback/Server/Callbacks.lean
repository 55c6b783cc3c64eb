import Canvasback.Server

/-!
# What the callbacks do

One lemma a callback and outcome: from which states it comes back, and the
state it leaves. Everything else about the server goes through these.
-/

namespace Canvasback

open CString Chunked Runs

/-- A client waits for its result under this descriptor number. -/
def Server.Waiting (s : Server) (fd : Fd) : Prop := ∃ p c, s.heap p = some (.client c) ∧ c.fd = fd

/-- What is done to the one file or the other, and only written to the first. -/
def Act.Within (conn db : Option File) : Act → Prop
  | .write file _ => conn = some file
  | .close file => conn = some file ∨ db = some file
  | .del file => file = none ∨ file = conn ∨ file = db

/-- The bytes an entry sends to a file. -/
def Entry.bytesTo (file : File) (e : Entry) : List UInt8 :=
  match e.act with
  | .write f bytes => if f = file then bytes else []
  | _ => []

/-- The bytes sent to a file so far. -/
def Server.sent (s : Server) (file : File) : List UInt8 := s.log.flatMap (Entry.bytesTo file)

def Act.isWrite : Act → Bool
  | .write .. => true
  | _ => false

/-- The trace of one callback: what it writes, it writes to `conn`. -/
structure Trace (who : Actor) (conn db : Option File) (writes : List (List UInt8))
    (log : List Entry) : Prop where
  within : ∀ e ∈ log, e.actor = who ∧ e.act.Within conn db
  sent : ∀ file, log.flatMap (Entry.bytesTo file) = if conn = some file then writes.flatten else []
  wrote : (log.any fun e => e.act.isWrite) = (conn.isSome && !writes.isEmpty)

namespace Server

section
variable {s s' : Server} {fd newfd d : Fd} {who : Actor} {p : Nat} {c : Client}
  {callback : Callback}

-- ---------------------------------------------------------------------------
-- Single calls
-- ---------------------------------------------------------------------------

def writeLog (s : Server) (who : Actor) (fd : Fd) (bytes : List UInt8) : List Entry :=
  ((s.files fd).map fun file => ⟨who, .write file bytes⟩).toList

def closeLog (s : Server) (who : Actor) (fd : Fd) : List Entry :=
  ((s.files fd).map fun file => ⟨who, .close file⟩).toList

theorem write_eq (s : Server) (who : Actor) (fd : Fd) (bytes : List UInt8) :
    s.write who fd bytes = { s with log := s.log ++ s.writeLog who fd bytes } := by
  unfold write writeLog
  cases s.files fd with
  | none => simp
  | some file => rfl

theorem close_eq (s : Server) (who : Actor) (fd : Fd) :
    s.close who fd =
      { s with files := Function.update s.files fd none, log := s.log ++ s.closeLog who fd } := by
  unfold close closeLog
  cases h : s.files fd with
  | none =>
    have : Function.update s.files fd none = s.files := by rw [← h, Function.update_eq_self]
    simp [this]
  | some file => rfl

theorem writes_eq (s : Server) (who : Actor) (fd : Fd) (writes : List (List UInt8)) :
    writes.foldl (fun s bytes => s.write who fd bytes) s =
      { s with log := s.log ++ writes.flatMap (s.writeLog who fd) } := by
  induction writes generalizing s with
  | nil => simp
  | cons bytes writes ih =>
    rw [List.foldl_cons, ih, write_eq]
    simp only [List.flatMap_cons, List.append_assoc]
    rfl

theorem picoevDel_ok (hr : InRange fd) (hf : s.fds fd ≠ none) (who : Actor) :
    s.picoevDel who fd = .ok { s with
      fds := Function.update s.fds fd none, log := s.log ++ [⟨who, .del (s.files fd)⟩] } :=
  if_pos ⟨hr, hf⟩

theorem picoevDel_inv (h : s.picoevDel who fd = .ok s') :
    (InRange fd ∧ s.fds fd ≠ none) ∧ s' = { s with
      fds := Function.update s.fds fd none, log := s.log ++ [⟨who, .del (s.files fd)⟩] } := by
  unfold picoevDel at h
  split at h
  · rename_i hc
    exact ⟨hc, (Except.ok.inj h).symm⟩
  · cases h

theorem picoevAdd_ok (hr : InRange fd) (hf : s.fds fd = none) (callback : Callback) :
    s.picoevAdd fd callback = .ok { s with fds := Function.update s.fds fd (some callback) } :=
  if_pos ⟨hr, hf⟩

theorem picoevAdd_inv (h : s.picoevAdd fd callback = .ok s') :
    (InRange fd ∧ s.fds fd = none) ∧
      s' = { s with fds := Function.update s.fds fd (some callback) } := by
  unfold picoevAdd at h
  split at h
  · rename_i hc
    exact ⟨hc, (Except.ok.inj h).symm⟩
  · cases h

theorem load_inv (h : s.load p = .ok c) : s.heap p = some (.client c) := by
  unfold load at h
  split at h
  · rename_i hc
    rw [hc, Except.ok.inj h]
  · cases h

-- ---------------------------------------------------------------------------
-- `accept_cb`
-- ---------------------------------------------------------------------------

def accepted (s : Server) (newfd : Fd) : Server :=
  { s with
    files := Function.update s.files newfd (some (.conn s.nextConn))
    fds := Function.update s.fds newfd (some .readCb)
    nextConn := s.nextConn + 1 }

@[simp] theorem accepted_files : (s.accepted newfd).files d =
    if d = newfd then some (.conn s.nextConn) else s.files d := Function.update_apply ..

@[simp] theorem accepted_fds : (s.accepted newfd).fds d =
    if d = newfd then some .readCb else s.fds d := Function.update_apply ..

theorem acceptCb_ok (hr : InRange newfd) (hf : s.fds newfd = none) :
    s.acceptCb newfd = .ok (s.accepted newfd) := by
  have hne : newfd ≠ -1 := by
    rintro rfl
    exact absurd hr (by decide)
  rw [acceptCb, if_neg hne]
  exact if_pos ⟨hr, hf⟩

theorem acceptCb_inv (h : s.acceptCb newfd = .ok s') :
    (newfd = -1 ∧ s' = s) ∨ (InRange newfd ∧ s.fds newfd = none ∧ s' = s.accepted newfd) := by
  unfold acceptCb at h
  split at h
  · rename_i hn
    exact .inl ⟨hn, (Except.ok.inj h).symm⟩
  · obtain ⟨⟨hr, hf⟩, rfl⟩ := picoevAdd_inv h
    exact .inr ⟨hr, hf, rfl⟩

end

end Server

-- ---------------------------------------------------------------------------
-- Traces
-- ---------------------------------------------------------------------------

section
variable {who : Actor} {conn db : Option File} {s : Server} {fd : Fd} {file : Option File}

theorem Trace.nil : Trace who conn db [] [] := ⟨by simp, by simp, by simp⟩

/-- What a callback has sent. -/
theorem Trace.sent_eq {s s' : Server} (h : Trace who conn db ws log)
    (hl : s'.log = s.log ++ log) (file : File) :
    s'.sent file = s.sent file ++ if conn = some file then ws.flatten else [] := by
  rw [Server.sent, hl, List.flatMap_append, h.sent]
  rfl

theorem Trace.append (h : Trace who conn db ws l) (h' : Trace who conn db ws' l') :
    Trace who conn db (ws ++ ws') (l ++ l') := by
  refine ⟨fun e he => ?_, fun file => ?_, ?_⟩
  · rcases List.mem_append.mp he with he | he
    · exact h.within e he
    · exact h'.within e he
  · rw [List.flatMap_append, h.sent, h'.sent]
    split <;> simp
  · rw [List.any_append, h.wrote, h'.wrote, ← Bool.and_or_distrib_left]
    cases ws <;> simp

theorem Trace.quiet (h : Trace who conn db ws l) (h' : Trace who conn db [] l') :
    Trace who conn db ws (l ++ l') := by
  simpa using h.append h'

theorem Trace.write (s : Server) (fd : Fd) (bytes : List UInt8) :
    Trace who (s.files fd) db [bytes] (s.writeLog who fd bytes) := by
  unfold Server.writeLog
  cases s.files fd with
  | none => exact ⟨by simp, by simp, by simp⟩
  | some f =>
    refine ⟨by simp [Act.Within], fun file => ?_, by simp [Act.isWrite]⟩
    simp [Entry.bytesTo]

theorem Trace.writes (ws : List (List UInt8)) :
    Trace who (s.files fd) db ws (ws.flatMap (s.writeLog who fd)) := by
  induction ws with
  | nil => exact .nil
  | cons bytes ws ih => exact (Trace.write s fd bytes).append ih

theorem Trace.close (h : s.files fd = none ∨ s.files fd = conn ∨ s.files fd = db) :
    Trace who conn db [] (s.closeLog who fd) := by
  unfold Server.closeLog
  cases hf : s.files fd with
  | none => exact .nil
  | some f =>
    have hw : conn = some f ∨ db = some f := by
      rw [hf] at h
      simpa [eq_comm] using h
    exact ⟨by simpa [Act.Within] using hw, by simp [Entry.bytesTo], by simp [Act.isWrite]⟩

theorem Trace.del (h : file = none ∨ file = conn ∨ file = db) :
    Trace who conn db [] [⟨who, .del file⟩] :=
  ⟨by simpa [Act.Within] using h, by simp [Entry.bytesTo], by simp [Act.isWrite]⟩

end

-- ---------------------------------------------------------------------------
-- `read_cb`
-- ---------------------------------------------------------------------------

/-- Which way `read_cb` takes on what it reads. -/
inductive Verdict where
  | keep
  | close
  | abort
  | query (n : Longs)
  deriving DecidableEq, Repr

def Read.verdict (r : Read) (behind : List UInt8) : Verdict :=
  match r with
  | .again => .keep
  | .eof | .error => .close
  | .data buf =>
    match parseRead buf with
    | .error _ => .abort
    | .ok (request, _) =>
      match tokenLoop ((buf ++ behind).drop request.pathOff) with
      | .close => .close
      | .tile n => .query n

/-- The head goes out for every request the parser accepts. -/
def Read.head : Read → List (List UInt8)
  | .data buf =>
    match parseRead buf with
    | .error _ => []
    | .ok _ => [Server.resHead]
  | _ => []

theorem Read.verdict_close (hp : parseRead buf = .ok (request, k))
    (ho : tokenLoop ((buf ++ behind).drop request.pathOff) = .close) :
    (Read.data buf).verdict behind = .close := by
  simp only [Read.verdict, hp, ho]

theorem Read.verdict_query (hp : parseRead buf = .ok (request, k))
    (ho : tokenLoop ((buf ++ behind).drop request.pathOff) = .tile n) :
    (Read.data buf).verdict behind = .query n := by
  simp only [Read.verdict, hp, ho]

/-- The connection to the database comes about. -/
def Libpq.Connects (db : Libpq) : Prop := db.bad = false ∧ pollLoop db.polls = some .ok

instance (db : Libpq) : Decidable db.Connects := inferInstanceAs (Decidable (_ ∧ _))

namespace Server

section
variable {s s' : Server} {fd d : Fd} {r : Read} {behind : List UInt8} {db : Libpq} {n : Longs}
  {who : Actor} {p q : Nat} {log : List Entry}

/-- A connection closed by `read_cb`, and its `client_t` freed. -/
def hungUp (s : Server) (fd : Fd) (log : List Entry) : Server :=
  { s with
    files := Function.update s.files fd none
    fds := Function.update s.fds fd none
    heap := Function.update s.heap s.nextPtr none
    nextPtr := s.nextPtr + 1
    log := s.log ++ log }

@[simp] theorem hungUp_files : (s.hungUp fd log).files d = if d = fd then none else s.files d :=
  Function.update_apply ..

@[simp] theorem hungUp_fds : (s.hungUp fd log).fds d = if d = fd then none else s.fds d :=
  Function.update_apply ..

@[simp] theorem hungUp_heap : (s.hungUp fd log).heap p = if p = s.nextPtr then none else s.heap p :=
  Function.update_apply ..

/-- A query on its way. -/
def asked (s : Server) (fd : Fd) (n : Longs) (db : Libpq) (log : List Entry) : Server :=
  { s with
    files := Function.update s.files db.sock (some (.db s.nextPg))
    fds := Function.update s.fds db.sock (some (.dbBinCb s.nextPtr))
    heap := Function.update s.heap s.nextPtr
      (some (.client ⟨fd, tms2bbox n.tile, n.tile, db.sock, s.nextPg, s.connAt fd⟩))
    pgs := Function.update s.pgs s.nextPg
      (some ⟨db.sock, if db.sent then some (template n.tile.z, tms2bbox n.tile) else none⟩)
    nextPtr := s.nextPtr + 1
    nextPg := s.nextPg + 1
    log := s.log ++ log }

@[simp] theorem asked_files : (s.asked fd n db log).files d =
    if d = db.sock then some (.db s.nextPg) else s.files d := Function.update_apply ..

@[simp] theorem asked_fds : (s.asked fd n db log).fds d =
    if d = db.sock then some (.dbBinCb s.nextPtr) else s.fds d := Function.update_apply ..

@[simp] theorem asked_pgs : (s.asked fd n db log).pgs q =
    if q = s.nextPg then
      some ⟨db.sock, if db.sent then some (template n.tile.z, tms2bbox n.tile) else none⟩
    else s.pgs q := Function.update_apply ..

@[simp] theorem asked_heap : (s.asked fd n db log).heap p =
    if p = s.nextPtr then
      some (.client ⟨fd, tms2bbox n.tile, n.tile, db.sock, s.nextPg, s.connAt fd⟩)
    else s.heap p := Function.update_apply ..

theorem readCb_keep (h : r.verdict behind = .keep) :
    s.readCb fd r behind db = .ok s.malloc.2 := by
  cases r with
  | again => rfl
  | eof | error => simp [Read.verdict] at h
  | data buf =>
    simp only [Read.verdict] at h
    split at h
    · cases h
    · split at h <;> cases h

theorem readCb_abort (h : r.verdict behind = .abort) :
    s.readCb fd r behind db = .error .abort := by
  cases r with
  | again | eof | error => simp [Read.verdict] at h
  | data buf =>
    simp only [Read.verdict] at h
    split at h
    · rename_i hp
      simp only [readCb, hp]
    · split at h <;> cases h

/-- The exit of `read_cb`, from where the `client_t` is allocated and `l` is
logged. -/
theorem closeExit_ok (hr : InRange fd) (hf : s.fds fd ≠ none) (who : Actor) (l : List Entry) :
    { s.malloc.2 with log := s.log ++ l }.closeExit who fd s.malloc.1 =
      .ok (s.hungUp fd (l ++ ([⟨who, .del (s.files fd)⟩] ++ s.closeLog who fd))) := by
  have hp : s.malloc.2.heap s.malloc.1 ≠ none := by simp [Server.malloc]
  have hupd : Function.update s.malloc.2.heap s.malloc.1 none =
      Function.update s.heap s.nextPtr none := by simp [Server.malloc]
  rw [closeExit, picoevDel_ok hr (by exact hf)]
  simp only [bind, Except.bind, close_eq, free, hp, if_false, hupd, hungUp, List.append_assoc]
  rfl

theorem closeExit_inv {client : Nat} (h : s.closeExit who fd client = .ok s') :
    InRange fd ∧ s.fds fd ≠ none := by
  unfold closeExit at h
  cases hd : s.picoevDel who fd with
  | error e =>
    rw [hd] at h
    cases h
  | ok s₁ => exact (picoevDel_inv hd).1

/-- On a hang-up, an error, or a request that asks for no tile. -/
theorem readCb_close (db : Libpq) (h : r.verdict behind = .close) (hr : InRange fd)
    (hf : s.fds fd ≠ none) : ∃ log, s.readCb fd r behind db = .ok (s.hungUp fd log) ∧
      Trace (.readCb (s.connAt fd)) (s.files fd) none r.head log := by
  have htrace : Trace (.readCb (s.connAt fd)) (s.files fd) none []
      ([⟨.readCb (s.connAt fd), .del (s.files fd)⟩] ++ s.closeLog (.readCb (s.connAt fd)) fd) :=
    (Trace.del (.inr (.inl rfl))).append (Trace.close (.inr (.inl rfl)))
  have hplain := closeExit_ok hr hf (.readCb (s.connAt fd)) []
  rw [List.append_nil] at hplain
  cases r with
  | again => simp [Read.verdict] at h
  | eof => exact ⟨_, hplain, htrace⟩
  | error => exact ⟨_, hplain, htrace⟩
  | data buf =>
    simp only [Read.verdict] at h
    split at h
    · cases h
    · rename_i request k hp
      split at h
      · rename_i ht
        -- the head has gone out already
        refine ⟨_, ?_, by
          simpa [Read.head, hp] using (Trace.write s fd resHead).append htrace⟩
        simp only [readCb, hp, ht, write_eq]
        exact closeExit_ok hr hf _ _
      · cases h

theorem sendConn_ok (hdb : db.Connects) (tile : Tms) (bbox : Bbox) :
    s.sendConn tile bbox db = .ok (s.nextPg, s.addPg
      ⟨db.sock, if db.sent then some (template tile.z, bbox) else none⟩) := by
  obtain ⟨hbad, hpoll⟩ := hdb
  simp only [sendConn, hbad, hpoll, Bool.false_eq_true, if_false, if_true, addPg,
    Nat.add_sub_cancel]

theorem pqSocket_addPg (s : Server) (pg : PgConn) : (s.addPg pg).pqSocket s.nextPg = pg.sock := by
  simp [addPg, pqSocket]

/-- Up to the registration. -/
theorem readCb_query_eq (s : Server) (fd : Fd) (h : r.verdict behind = .query n)
    (hdb : db.Connects) : ∃ log, s.readCb fd r behind db =
        { s.asked fd n db log with
          fds := s.fds
          files := if 0 ≤ db.sock then Function.update s.files db.sock (some (.db s.nextPg))
            else s.files }.picoevAdd db.sock (.dbBinCb s.nextPtr) ∧
      Trace (.readCb (s.connAt fd)) (s.files fd) none r.head log := by
  cases r with
  | again | eof | error => simp [Read.verdict] at h
  | data buf =>
    simp only [Read.verdict] at h
    split at h
    · cases h
    · rename_i request k hp
      split at h
      · cases h
      · rename_i n' ht
        cases h
        refine ⟨_, ?_, by simpa [Read.head, hp] using Trace.write s fd resHead⟩
        simp only [readCb, hp, ht, write_eq, sendConn_ok hdb, bind, Except.bind, pqSocket_addPg]
        simp only [asked, addPg, store, Server.malloc, Function.update_idem]
        rfl

/-- On a request for a tile, when the database answers. -/
theorem readCb_query (s : Server) (fd : Fd) (h : r.verdict behind = .query n) (hdb : db.Connects)
    (hr : InRange db.sock) (hf : s.fds db.sock = none) :
    ∃ log, s.readCb fd r behind db = .ok (s.asked fd n db log) ∧
      Trace (.readCb (s.connAt fd)) (s.files fd) none r.head log := by
  obtain ⟨log, heq, htrace⟩ := readCb_query_eq s fd h hdb
  refine ⟨log, ?_, htrace⟩
  rw [heq, picoevAdd_ok hr (by exact hf), if_pos hr.1]
  rfl

theorem picoevAdd_neg (s : Server) (callback : Callback) :
    s.picoevAdd (-1) callback = .error .abort := if_neg fun h => absurd h.1 (by decide)

/-- Without a database connection there is no socket to register: -1 fails
picoev's assertion. -/
theorem readCb_unconnected (s : Server) (fd : Fd) (h : r.verdict behind = .query n)
    (hdb : ¬ db.Connects) : s.readCb fd r behind db = .error .abort ∨
      db.bad = false ∧ s.readCb fd r behind db = .error .hang := by
  cases r with
  | again | eof | error => simp [Read.verdict] at h
  | data buf =>
    simp only [Read.verdict] at h
    split at h
    · cases h
    · rename_i request k hp
      split at h
      · cases h
      · rename_i n' ht
        cases h
        simp only [readCb, hp, ht, sendConn]
        cases hbad : db.bad with
        | true =>
          left
          simp only [if_true, bind, Except.bind, pqSocket, addPg, Function.update_self]
          exact picoevAdd_neg _ _
        | false =>
          simp only [Bool.false_eq_true, if_false]
          cases hpoll : pollLoop db.polls with
          | none => exact .inr ⟨trivial, rfl⟩
          | some status =>
            have hne : status ≠ .ok := by
              rintro rfl
              exact hdb ⟨hbad, hpoll⟩
            left
            simp only [hne, if_false, bind, Except.bind, pqSocket, addPg, Function.update_self]
            exact picoevAdd_neg _ _

/-- When `read_cb` comes back. -/
theorem readCb_inv (h : s.readCb fd r behind db = .ok s') :
    r.verdict behind = .keep ∨
    (r.verdict behind = .close ∧ InRange fd ∧ s.fds fd ≠ none) ∨
    ∃ n, r.verdict behind = .query n ∧ db.Connects ∧ InRange db.sock ∧ s.fds db.sock = none := by
  cases hv : r.verdict behind with
  | keep => exact .inl rfl
  | abort =>
    rw [readCb_abort hv] at h
    cases h
  | close =>
    refine .inr (.inl ⟨rfl, ?_⟩)
    cases r with
    | again => simp [Read.verdict] at hv
    | eof | error =>
      have hc : s.malloc.2.closeExit (.readCb (s.connAt fd)) fd s.malloc.1 = .ok s' := h
      have := closeExit_inv hc
      exact this
    | data buf =>
      simp only [Read.verdict] at hv
      split at hv
      · cases hv
      · rename_i request k hp
        split at hv
        · rename_i ht
          simp only [readCb, hp, ht, write_eq] at h
          have := closeExit_inv h
          exact this
        · cases hv
  | query n =>
    refine .inr (.inr ⟨n, rfl, ?_⟩)
    by_cases hdb : db.Connects
    · obtain ⟨log, heq, -⟩ := readCb_query_eq s fd hv hdb
      rw [heq] at h
      exact ⟨hdb, (picoevAdd_inv h).1⟩
    · rcases readCb_unconnected s fd hv hdb with h' | ⟨-, h'⟩ <;> rw [h'] at h <;> cases h

end

-- ---------------------------------------------------------------------------
-- `fmt_res_bin`
-- ---------------------------------------------------------------------------

section
variable {scale : Scale} {junk : Nat → UInt8} {fuel : Nat} {s s' : Server} {p q : Nat} {c : Client}
  {d : Fd} {log : List Entry} {pg : PgConn} {rows : List Row} {writes : List (List UInt8)}

/-- The writes of `fmt_res_bin`, where the row loop gets through. -/
def body (scale : Scale) (junk : Nat → UInt8) (fuel : Nat) (tile : Tms) :
    List Row → Except Stop (List (List UInt8))
  | [] => .ok [ascii "0\r\n\r\n"]
  | rows =>
    match fmtRows scale tile fuel rows ⟨0, 0, Canvasback.malloc junk (chunkCnt rows)⟩ with
    | .error fault => .error (.rows fault)
    | .ok strm => .ok (tileWrites strm)

/-- The client answered and everything it held given back. -/
def answered (s : Server) (p : Nat) (c : Client) (log : List Entry) : Server :=
  { s with
    files := Function.update (Function.update s.files c.dbfd none) c.fd none
    fds := Function.update (Function.update s.fds c.fd none) c.dbfd none
    heap := Function.update s.heap p none
    pgs := Function.update s.pgs c.conn none
    log := s.log ++ log }

@[simp] theorem answered_files : (s.answered p c log).files d =
    if d = c.fd then none else if d = c.dbfd then none else s.files d := by
  simp [answered, Function.update_apply]

@[simp] theorem answered_fds : (s.answered p c log).fds d =
    if d = c.dbfd then none else if d = c.fd then none else s.fds d := by
  simp [answered, Function.update_apply]

@[simp] theorem answered_heap : (s.answered p c log).heap q = if q = p then none else s.heap q :=
  Function.update_apply ..

@[simp] theorem answered_pgs : (s.answered p c log).pgs q =
    if q = c.conn then none else s.pgs q := Function.update_apply ..

/-- What `fmt_res_bin` needs of the state. -/
structure Answerable (s : Server) (c : Client) : Prop where
  pg : ∃ pg, s.pgs c.conn = some pg ∧ pg.sock = c.dbfd
  fd : InRange c.fd ∧ s.fds c.fd ≠ none
  dbfd : InRange c.dbfd ∧ s.fds c.dbfd ≠ none
  ne : c.dbfd ≠ c.fd

theorem pqFinish_ok {conn : Nat} (hpg : s.pgs conn = some pg) (h0 : 0 ≤ pg.sock) (who : Actor) :
    s.pqFinish who conn = .ok { s with
      files := Function.update s.files pg.sock none
      pgs := Function.update s.pgs conn none
      log := s.log ++ s.closeLog who pg.sock } := by
  simp only [pqFinish, hpg, h0, if_true, close_eq]

theorem free_ok (hp : s.heap p ≠ none) :
    s.free p = .ok { s with heap := Function.update s.heap p none } := if_neg hp

theorem fmtResBin_ok (hc : s.heap p = some (.client c))
    (hb : body scale junk fuel c.tile rows = .ok writes) (ha : s.Answerable c) :
    ∃ log, s.fmtResBin scale junk fuel p rows = .ok (s.answered p c log) ∧
      Trace (.fmtResBin c.origin c.conn) (s.files c.fd) (s.files c.dbfd) writes log := by
  obtain ⟨⟨pg, hpg, hsock⟩, ⟨hfr, hfd⟩, ⟨hdr, hdbfd⟩, hne⟩ := ha
  have h0 : 0 ≤ pg.sock := hsock ▸ hdr.1
  have hload : s.load p = .ok c := by simp only [load, hc]
  have hdb : Function.update s.fds c.fd none c.dbfd ≠ none := by
    rwa [Function.update_of_ne hne]
  have hfile : Function.update s.files c.dbfd none c.fd = s.files c.fd :=
    Function.update_of_ne hne.symm _ _
  have hp : s.heap p ≠ none := by simp [hc]
  cases rows with
  | nil =>
    cases hb
    simp only [fmtResBin, hload, bind, Except.bind, write_eq]
    rw [pqFinish_ok (by exact hpg) h0, hsock]
    simp only
    rw [picoevDel_ok hfr (by exact hfd)]
    simp only
    rw [picoevDel_ok hdr (by exact hdb)]
    simp only [close_eq]
    rw [free_ok (by exact hp)]
    refine ⟨_, by simp only [answered, List.append_assoc]; rfl, ?_⟩
    refine (Trace.write s c.fd _).quiet ((Trace.close ?_).quiet ((Trace.del ?_).quiet
      ((Trace.del ?_).quiet (Trace.close ?_))))
    · exact .inr (.inr rfl)
    · exact .inr (.inl hfile)
    · exact .inl (Function.update_self ..)
    · exact .inr (.inl hfile)
  | cons row rows =>
    simp only [body] at hb
    split at hb
    · cases hb
    · rename_i strm hrun
      cases hb
      simp only [fmtResBin, hload, hrun, bind, Except.bind, writes_eq]
      rw [pqFinish_ok (by exact hpg) h0, hsock]
      simp only [close_eq]
      rw [picoevDel_ok hfr (by exact hfd)]
      simp only
      rw [picoevDel_ok hdr (by exact hdb)]
      simp only
      rw [free_ok (by exact hp)]
      refine ⟨_, by simp only [answered, List.append_assoc]; rfl, ?_⟩
      refine (Trace.writes _).quiet ((Trace.close ?_).quiet ((Trace.close ?_).quiet
        ((Trace.del ?_).quiet (Trace.del ?_))))
      · exact .inr (.inr rfl)
      · exact .inr (.inl hfile)
      · exact .inl (Function.update_self ..)
      · left
        rw [Function.update_of_ne hne, Function.update_self]

theorem pqFinish_inv {who : Actor} {conn : Nat} (h : s.pqFinish who conn = .ok s') :
    (∃ pg, s.pgs conn = some pg) ∧ s'.fds = s.fds := by
  unfold pqFinish at h
  split at h
  · cases h
  · rename_i pg hpg
    refine ⟨⟨pg, hpg⟩, ?_⟩
    rw [← Except.ok.inj h]
    simp only [close_eq]
    split <;> rfl

/-- When `fmt_res_bin` comes back. -/
theorem fmtResBin_inv (h : s.fmtResBin scale junk fuel p rows = .ok s') :
    ∃ c writes, s.heap p = some (.client c) ∧ body scale junk fuel c.tile rows = .ok writes ∧
      (∃ pg, s.pgs c.conn = some pg) ∧ (InRange c.fd ∧ s.fds c.fd ≠ none) ∧
      (InRange c.dbfd ∧ s.fds c.dbfd ≠ none) ∧ c.dbfd ≠ c.fd := by
  obtain ⟨c, hload, h⟩ := bind_eq_ok.mp h
  have hdels {s₁ s₂ s₃ : Server} {who : Actor} (h₁ : s₁.picoevDel who c.fd = .ok s₂)
      (h₂ : s₂.picoevDel who c.dbfd = .ok s₃) (hs : s₁.fds = s.fds) :
      (InRange c.fd ∧ s.fds c.fd ≠ none) ∧ (InRange c.dbfd ∧ s.fds c.dbfd ≠ none) ∧
        c.dbfd ≠ c.fd := by
    obtain ⟨hfd, rfl⟩ := picoevDel_inv h₁
    obtain ⟨⟨hr, hdb⟩, -⟩ := picoevDel_inv h₂
    simp only [hs] at hfd hdb
    have hne : c.dbfd ≠ c.fd := by
      intro he
      rw [he, Function.update_self] at hdb
      exact hdb rfl
    rw [Function.update_of_ne hne] at hdb
    exact ⟨hfd, ⟨hr, hdb⟩, hne⟩
  cases rows with
  | nil =>
    obtain ⟨s₁, h₁, h⟩ := bind_eq_ok.mp h
    obtain ⟨s₂, h₂, h⟩ := bind_eq_ok.mp h
    obtain ⟨s₃, h₃, h⟩ := bind_eq_ok.mp h
    obtain ⟨hpg, hfds⟩ := pqFinish_inv h₁
    rw [write_eq] at hpg hfds
    exact ⟨c, _, load_inv hload, rfl, hpg, hdels h₂ h₃ hfds⟩
  | cons row rows =>
    simp only at h
    split at h
    · cases h
    · rename_i strm hrun
      obtain ⟨s₁, h₁, h⟩ := bind_eq_ok.mp h
      obtain ⟨s₂, h₂, h⟩ := bind_eq_ok.mp h
      obtain ⟨s₃, h₃, h⟩ := bind_eq_ok.mp h
      obtain ⟨hpg, hfds⟩ := pqFinish_inv h₁
      rw [writes_eq] at hpg hfds
      exact ⟨c, tileWrites strm, load_inv hload, by simp only [body, hrun], hpg,
        hdels h₂ h₃ (by rw [close_eq]; exact hfds)⟩

end

end Server

-- ---------------------------------------------------------------------------
-- A first request
-- ---------------------------------------------------------------------------

open Server

def tileRequest : Read := .data (ascii "GET /tms,3,2,1 HTTP/1.1\r\n\r\n")

theorem tileRequest_query : tileRequest.verdict [] = .query ⟨3, 2, 1⟩ := by decide +kernel

def newDb (sock : Fd) : Libpq := ⟨false, [.reading, .ok], sock, true⟩

/-- A line of one point. -/
def oneLine : Row :=
  ⟨[1, 2, 0, 0, 0, 1, 0, 0, 0] ++ List.replicate 16 0, fun _ => none, ascii "path"⟩

abbrev plainServer : Runs.System Server Event Stop := server (fun _ _ _ => 0) (fun _ => 0) 1

def oneConn : Server := (Server.init 3).accepted 5

def waiting (log : List Entry) : Server := oneConn.asked 5 ⟨3, 2, 1⟩ (newDb 6) log

def firstClient : Client := ⟨5, tms2bbox (Longs.tile ⟨3, 2, 1⟩), Longs.tile ⟨3, 2, 1⟩, 6, 0, 0⟩

theorem init_accept_enabled : (Server.init 3).Enabled (.accept 5) :=
  ⟨⟨3, rfl, rfl⟩, .inr ⟨by decide, rfl⟩⟩

theorem init_accept : plainServer.step (.init 3) (.accept 5) = .ok oneConn :=
  (server_accept ..).trans (acceptCb_ok (by decide) rfl)

theorem oneConn_reachable : Runs.Reachable plainServer (.init 3) oneConn :=
  Runs.Reachable.refl.step (show plainServer.enabled _ (.accept 5) from init_accept_enabled)
    init_accept

theorem oneConn_request_enabled : oneConn.Enabled (.readable 5 tileRequest [] (newDb 6)) :=
  ⟨⟨0, rfl⟩, rfl, ⟨by decide, by decide⟩, fun _ _ => ⟨by decide, rfl⟩⟩

theorem first_request : ∃ log, oneConn.readCb 5 tileRequest [] (newDb 6) = .ok (waiting log) := by
  obtain ⟨log, h, -⟩ := readCb_query oneConn 5 tileRequest_query
    (show (newDb 6).Connects by decide) (by decide) rfl
  exact ⟨log, h⟩

theorem oneConn_request : ∃ log,
    plainServer.step oneConn (.readable 5 tileRequest [] (newDb 6)) = .ok (waiting log) := by
  obtain ⟨log, h⟩ := first_request
  exact ⟨log, (server_readable ..).trans h⟩

theorem oneLine_body : body (fun _ _ _ => 0) (fun _ => 0) 1 (Longs.tile ⟨3, 2, 1⟩) [oneLine] =
    .ok (tileWrites ⟨1, 1, [2, 0, 0, 0, 1, 0, 0, 0, 10, 0, 0, 0, 0, 0, 0, 0] ++
      List.replicate 9 0⟩) := by
  decide +kernel

-- ---------------------------------------------------------------------------
-- Two requests in flight
-- ---------------------------------------------------------------------------

/-- The first is answered while the second waits, and its number given out
again. -/
def twoRequests : List Event :=
  [.accept 5, .readable 5 tileRequest [] (newDb 6), .accept 7,
    .readable 7 tileRequest [] (newDb 8), .reply 6 [oneLine], .accept 5, .reply 8 [oneLine]]

def secondClient : Client := ⟨7, tms2bbox (Longs.tile ⟨3, 2, 1⟩), Longs.tile ⟨3, 2, 1⟩, 8, 1, 1⟩

def bothWaiting (l₂ l₄ : List Entry) : Server :=
  ((waiting l₂).accepted 7).asked 7 ⟨3, 2, 1⟩ (newDb 8) l₄

def firstAnswered (l₂ l₄ l₅ : List Entry) : Server := (bothWaiting l₂ l₄).answered 0 firstClient l₅

def bothAnswered (l₂ l₄ l₅ l₇ : List Entry) : Server :=
  ((firstAnswered l₂ l₄ l₅).accepted 5).answered 1 secondClient l₇

section
variable {scale : Scale} {junk : Nat → UInt8} {fuel : Nat} {writes : List (List UInt8)}
  {l₂ l₄ l₅ : List Entry}

theorem second_request : ∃ l₄, ((waiting l₂).accepted 7).readCb 7 tileRequest [] (newDb 8) =
    .ok (bothWaiting l₂ l₄) := by
  obtain ⟨log, h, -⟩ := readCb_query ((waiting l₂).accepted 7) 7 tileRequest_query
    (show (newDb 8).Connects by decide) (by decide) rfl
  exact ⟨log, h⟩

theorem first_reply (hb : body scale junk fuel (Longs.tile ⟨3, 2, 1⟩) [oneLine] = .ok writes) :
    ∃ l₅, (server scale junk fuel).step (bothWaiting l₂ l₄) (.reply 6 [oneLine]) =
      .ok (firstAnswered l₂ l₄ l₅) := by
  have hc : (bothWaiting l₂ l₄).heap 0 = some (.client firstClient) := rfl
  have ha : (bothWaiting l₂ l₄).Answerable firstClient :=
    ⟨⟨_, rfl, rfl⟩, ⟨by decide, Option.some_ne_none _⟩, ⟨by decide, Option.some_ne_none _⟩,
      by decide⟩
  obtain ⟨log, h, -⟩ := fmtResBin_ok hc hb ha
  exact ⟨log, (server_reply _ _ _ _ (show (bothWaiting l₂ l₄).fds 6 = some (.dbBinCb 0) from rfl)
    [oneLine]).trans h⟩

theorem second_reply (hb : body scale junk fuel (Longs.tile ⟨3, 2, 1⟩) [oneLine] = .ok writes) :
    ∃ l₇, (server scale junk fuel).step ((firstAnswered l₂ l₄ l₅).accepted 5) (.reply 8 [oneLine]) =
      .ok (bothAnswered l₂ l₄ l₅ l₇) := by
  have hc : ((firstAnswered l₂ l₄ l₅).accepted 5).heap 1 = some (.client secondClient) := rfl
  have ha : ((firstAnswered l₂ l₄ l₅).accepted 5).Answerable secondClient :=
    ⟨⟨_, rfl, rfl⟩, ⟨by decide, Option.some_ne_none _⟩, ⟨by decide, Option.some_ne_none _⟩,
      by decide⟩
  obtain ⟨log, h, -⟩ := fmtResBin_ok hc hb ha
  exact ⟨log, (server_reply _ _ _ _
    (show ((firstAnswered l₂ l₄ l₅).accepted 5).fds 8 = some (.dbBinCb 1) from rfl)
    [oneLine]).trans h⟩

theorem twoRequests_steps (scale : Scale) (junk : Nat → UInt8) (fuel : Nat)
    (hb : body scale junk fuel (Longs.tile ⟨3, 2, 1⟩) [oneLine] = .ok writes) :
    ∃ l₂ l₄ l₅ l₇,
      (server scale junk fuel).step (.init 3) (.accept 5) = .ok oneConn ∧
      (server scale junk fuel).step oneConn (.readable 5 tileRequest [] (newDb 6)) =
        .ok (waiting l₂) ∧
      (server scale junk fuel).step (waiting l₂) (.accept 7) = .ok ((waiting l₂).accepted 7) ∧
      (server scale junk fuel).step ((waiting l₂).accepted 7)
        (.readable 7 tileRequest [] (newDb 8)) = .ok (bothWaiting l₂ l₄) ∧
      (server scale junk fuel).step (bothWaiting l₂ l₄) (.reply 6 [oneLine]) =
        .ok (firstAnswered l₂ l₄ l₅) ∧
      (server scale junk fuel).step (firstAnswered l₂ l₄ l₅) (.accept 5) =
        .ok ((firstAnswered l₂ l₄ l₅).accepted 5) ∧
      (server scale junk fuel).step ((firstAnswered l₂ l₄ l₅).accepted 5) (.reply 8 [oneLine]) =
        .ok (bothAnswered l₂ l₄ l₅ l₇) := by
  obtain ⟨l₂, h₂⟩ := first_request
  obtain ⟨l₄, h₄⟩ := @second_request l₂
  obtain ⟨l₅, h₅⟩ := @first_reply scale junk fuel _ l₂ l₄ hb
  obtain ⟨l₇, h₇⟩ := @second_reply scale junk fuel _ l₂ l₄ l₅ hb
  exact ⟨l₂, l₄, l₅, l₇, (server_accept ..).trans (acceptCb_ok (by decide) rfl),
    (server_readable ..).trans h₂, (server_accept ..).trans (acceptCb_ok (by decide) rfl),
    (server_readable ..).trans h₄, h₅, (server_accept ..).trans (acceptCb_ok (by decide) rfl), h₇⟩

/-- The system lets it happen all along. -/
theorem twoRequests_enabled : (Server.init 3).Enabled (.accept 5) ∧
    oneConn.Enabled (.readable 5 tileRequest [] (newDb 6)) ∧
    (waiting l₂).Enabled (.accept 7) ∧
    ((waiting l₂).accepted 7).Enabled (.readable 7 tileRequest [] (newDb 8)) ∧
    (bothWaiting l₂ l₄).Enabled (.reply 6 [oneLine]) ∧
    (firstAnswered l₂ l₄ l₅).Enabled (.accept 5) ∧
    ((firstAnswered l₂ l₄ l₅).accepted 5).Enabled (.reply 8 [oneLine]) := by
  refine ⟨init_accept_enabled, oneConn_request_enabled, ⟨⟨3, rfl, rfl⟩, .inr ⟨by decide, rfl⟩⟩,
    ⟨⟨1, rfl⟩, rfl, ⟨by decide, by decide⟩, fun _ _ => ⟨by decide, rfl⟩⟩, ⟨⟨0, rfl⟩, 0, rfl⟩,
    ⟨⟨3, rfl, rfl⟩, .inr ⟨by decide, rfl⟩⟩, ⟨1, rfl⟩, 1, rfl⟩

end

end Canvasback
