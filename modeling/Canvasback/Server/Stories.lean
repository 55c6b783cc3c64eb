import Canvasback.PicoHttp.Texts
import Canvasback.Server.Invariant
import Canvasback.Server.Response

/-!
# What clients see

The process for clients that send whole requests and wait for their answers, a
database that can be reached and results `fmt_res_bin` puts out as they are.
What has become of each connection is written down beside it, from what comes
in alone: which connection a request came on, which session was opened for it,
what that session gave. The process does what is written down, whatever the
order, and holds nothing for those that are gone.
-/

namespace Canvasback

open CString Chunked Runs Server

-- ---------------------------------------------------------------------------
-- Stories
-- ---------------------------------------------------------------------------

/-- What has become of a connection; one dropped had its request accepted or
not. -/
inductive Story where
  | unborn
  | quiet
  | asked (tile : Tms)
  | answered (tile : Tms) (rows : List TreeRow)
  | dropped (accepted : Bool)

def Story.Live : Story → Prop
  | .quiet | .asked _ => True
  | _ => False

/-- The records of a result as one chunk, if there are any. -/
def chunks (scale : Scale) (tile : Tms) (rows : List TreeRow) : List (List UInt8) :=
  let stream := (records scale tile rows).flatMap Record.encode
  if stream = [] then [] else [stream]

/-- What the client has been sent. -/
def Story.bytes (scale : Scale) : Story → List UInt8
  | .unborn | .quiet => []
  | .asked _ => resHead
  | .answered tile rows => resHead ++ encode (chunks scale tile rows)
  | .dropped accepted => if accepted then resHead else []

/-- The stories of all connections, and for which each database session was
opened. -/
structure Stories where
  story : Nat → Story
  nextConn : Nat
  asker : Nat → Nat
  nextPg : Nat

/-- Before `main` is at its loop. -/
def Stories.blank : Stories := ⟨fun _ => .unborn, 0, fun _ => 0, 0⟩

/-- What comes in: a connection, something to read, a result. -/
inductive Arrival where
  | connection (newfd : Fd)
  | bytes (fd : Fd) (r : Read) (behind : List UInt8) (db : Libpq)
  | result (fd : Fd) (rows : List TreeRow)

def Arrival.event : Arrival → Event
  | .connection newfd => .accept newfd
  | .bytes fd r behind db => .readable fd r behind db
  | .result fd rows => .reply fd (rows.map TreeRow.row)

/-- Nobody is gone when written to. -/
def Arrival.moment (a : Arrival) : Moment := ⟨a.event, false⟩

def Stories.tell (b : Stories) (id : Nat) (story : Story) : Stories :=
  { b with story := Function.update b.story id story }

/-- What is written down when something comes in on these descriptors. -/
def Stories.note (b : Stories) (files : Fd → Option File) : Arrival → Stories
  | .connection newfd =>
    if newfd = -1 then b else { b.tell b.nextConn .quiet with nextConn := b.nextConn + 1 }
  | .bytes fd r behind _ =>
    match files fd, r.verdict behind with
    | some (.conn id), .close => b.tell id (.dropped (r.head ≠ []))
    | some (.conn id), .query n =>
      { b.tell id (.asked n.tile) with
        asker := Function.update b.asker b.nextPg id, nextPg := b.nextPg + 1 }
    | _, _ => b
  | .result fd rows =>
    match files fd with
    | some (.db pg) =>
      match b.story (b.asker pg) with
      | .asked tile => b.tell (b.asker pg) (.answered tile rows)
      | _ => b
    | _ => b

/-- Requests are whole and well formed and wait for their answer, reads are not
cut short, and the database answers, with no rows or with rows that are gone
through, leave records, and have room for them. -/
def Arrival.Fair (fuel : Nat) (s : Server) : Arrival → Prop
  | .connection _ => True
  | .bytes fd r behind db =>
    r.verdict behind ≠ .abort ∧ db.Connects ∧ r ≠ .again ∧ ¬ s.Waiting fd
  | .result _ rows => totalLength rows ≤ fuel ∧ (∀ t ∈ rows, t.Walkable) ∧
      (rows = [] ∨ Roomy rows ∧ ∃ t ∈ rows, t.geom.leaves ≠ [])

/-- The process, and its clients' stories beside it. -/
def storied (scale : Scale) (junk : Nat → UInt8) (fuel : Nat) :
    System (Server × Stories) Arrival Stop where
  enabled st a := (process scale junk fuel).enabled st.1 a.moment ∧ a.Fair fuel st.1
  step st a := do
    let s ← (process scale junk fuel).step st.1 a.moment
    .ok (s, st.2.note st.1.files a)

-- ---------------------------------------------------------------------------
-- The server and the stories
-- ---------------------------------------------------------------------------

/-- What the server holds is what the stories that go on need. -/
structure Agrees (scale : Scale) (s : Server) (b : Stories) : Prop where
  inv : s.Inv
  nextConn : b.nextConn = s.nextConn
  nextPg : b.nextPg = s.nextPg
  sent : ∀ id, s.sent (.conn id) = (b.story id).bytes scale
  live : ∀ id, (∃ fd, s.files fd = some (.conn id)) ↔ (b.story id).Live
  one : ∀ {id fd fd'}, s.files fd = some (.conn id) → s.files fd' = some (.conn id) → fd = fd'
  unborn : ∀ id, s.nextConn ≤ id → b.story id = .unborn
  client : ∀ {p c}, s.heap p = some (.client c) → b.story c.origin = .asked c.tile ∧
    b.asker c.conn = c.origin ∧ s.files c.fd = some (.conn c.origin) ∧
    s.files c.dbfd = some (.db c.conn)
  asked : ∀ {id tile}, b.story id = .asked tile → ∃ p c, s.heap p = some (.client c) ∧ c.origin = id
  owned : ∀ {q}, s.pgs q ≠ none → ∃ p c, s.heap p = some (.client c) ∧ c.conn = q
  session : ∀ {fd q}, s.files fd = some (.db q) → ∃ p c, s.heap p = some (.client c) ∧ c.dbfd = fd
  bufs : s.bufs = 0

section
variable {s s' : Server} {b : Stories} {fd newfd : Fd} {p id : Nat} {c : Client} {r : Read}
  {behind : List UInt8} {db : Libpq} {n : Longs} {log : List Entry} {rows : List TreeRow}
  {scale : Scale} {junk : Nat → UInt8} {fuel : Nat} {a : Arrival} {listenSock : Fd}

@[simp] theorem tell_story (id id' : Nat) (story : Story) :
    (b.tell id story).story id' = if id' = id then story else b.story id' :=
  Function.update_apply ..

theorem note_result {files : Fd → Option File} {pg : Nat} {tile : Tms}
    (hfile : files fd = some (.db pg)) (hstory : b.story (b.asker pg) = .asked tile) :
    b.note files (.result fd rows) = b.tell (b.asker pg) (.answered tile rows) := by
  simp only [Stories.note, hfile, hstory]

theorem Agrees.init (hr : Server.InRange listenSock) :
    Agrees scale (Server.init listenSock) .blank where
  inv := .init hr
  nextConn := rfl
  nextPg := rfl
  sent _ := rfl
  live id := by
    refine ⟨fun ⟨fd, hfd⟩ => ?_, fun h => h.elim⟩
    simp only [Server.init, Function.update_apply] at hfd
    split at hfd <;> cases hfd
  one {id fd fd'} hfd := by
    simp only [Server.init, Function.update_apply] at hfd
    split at hfd <;> cases hfd
  unborn _ _ := rfl
  client h := nomatch h
  asked h := nomatch h
  owned h := absurd rfl h
  session {fd q} hfd := by
    simp only [Server.init, Function.update_apply] at hfd
    split at hfd <;> cases hfd
  bufs := rfl

/-- No number in use is given out. -/
theorem Agrees.ne_unused (hu : s.Unused newfd) {file : File} (h : s.files fd = some file) :
    fd ≠ newfd := by
  rintro rfl
  rw [hu.2] at h
  cases h

theorem Agrees.accepted (h : Agrees scale s b) (hu : s.Unused newfd) :
    Agrees scale (s.accepted newfd)
      { b.tell b.nextConn .quiet with nextConn := b.nextConn + 1 } := by
  have hfresh : b.story s.nextConn = .unborn := h.unborn _ le_rfl
  have hold {id : Nat} {fd : Fd} (hfd : s.files fd = some (.conn id)) : id ≠ s.nextConn := by
    rintro rfl
    have hlive := (h.live _).mp ⟨fd, hfd⟩
    rw [hfresh] at hlive
    exact hlive
  have hfile {fd : Fd} {file : File} (hfd : s.files fd = some file) :
      (s.accepted newfd).files fd = some file := by
    rw [accepted_files, if_neg (Agrees.ne_unused hu hfd)]
    exact hfd
  have hstory {id : Nat} (hid : id ≠ s.nextConn) :
      (b.tell b.nextConn .quiet).story id = b.story id := by
    rw [tell_story, h.nextConn, if_neg hid]
  have hnew : (b.tell b.nextConn .quiet).story s.nextConn = .quiet := by
    rw [tell_story, h.nextConn, if_pos rfl]
  have hsplit {id : Nat} {fd : Fd} (hfd : (s.accepted newfd).files fd = some (.conn id)) :
      fd = newfd ∧ id = s.nextConn ∨ id ≠ s.nextConn ∧ s.files fd = some (.conn id) := by
    rw [accepted_files] at hfd
    split at hfd
    · rename_i he
      cases hfd
      exact .inl ⟨he, rfl⟩
    · exact .inr ⟨hold hfd, hfd⟩
  refine ⟨h.inv.accepted hu, congrArg (· + 1) h.nextConn, h.nextPg, fun id => ?_, fun id => ?_,
    fun {id fd fd'} hfd hfd' => ?_, fun id hid => ?_, fun {p c} hc => ?_, fun {id tile} hid => ?_,
    h.owned, fun {fd q} hfd => ?_, h.bufs⟩
  · show s.sent (.conn id) = _
    by_cases hid : id = s.nextConn
    · rw [hid, h.sent, hfresh, hnew]
      rfl
    · rw [hstory hid, h.sent]
  · by_cases hid : id = s.nextConn
    · rw [hid, hnew]
      exact ⟨fun _ => trivial, fun _ => ⟨newfd, by rw [accepted_files, if_pos rfl]⟩⟩
    · rw [hstory hid, ← h.live]
      constructor
      · rintro ⟨fd, hfd⟩
        rcases hsplit hfd with ⟨-, he⟩ | ⟨-, hfd⟩
        · exact absurd he hid
        · exact ⟨fd, hfd⟩
      · rintro ⟨fd, hfd⟩
        exact ⟨fd, hfile hfd⟩
  · rcases hsplit hfd with ⟨rfl, rfl⟩ | ⟨hne, hfd⟩
    · rcases hsplit hfd' with ⟨rfl, -⟩ | ⟨hne, -⟩
      · rfl
      · exact absurd rfl hne
    · rcases hsplit hfd' with ⟨-, he⟩ | ⟨-, hfd'⟩
      · exact absurd he hne
      · exact h.one hfd hfd'
  · have hid : s.nextConn + 1 ≤ id := hid
    rw [hstory (by omega)]
    exact h.unborn id (by omega)
  · obtain ⟨hs, ha, hf, hd⟩ := h.client hc
    exact ⟨(hstory (hold hf)).trans hs, ha, hfile hf, hfile hd⟩
  · by_cases hne : id = s.nextConn
    · rw [hne, hnew] at hid
      cases hid
    · rw [hstory hne] at hid
      exact h.asked hid
  · rw [accepted_files] at hfd
    split at hfd
    · cases hfd
    · exact h.session hfd

/-- A connection that does not wait for an answer has not asked. -/
theorem Agrees.quiet (h : Agrees scale s b) (hfile : s.files fd = some (.conn id))
    (hw : ¬ s.Waiting fd) : b.story id = .quiet := by
  have hlive := (h.live id).mp ⟨fd, hfile⟩
  cases hs : b.story id with
  | quiet => rfl
  | asked tile =>
    obtain ⟨p, c, hc, rfl⟩ := h.asked hs
    exact absurd ⟨p, c, hc, h.one (h.client hc).2.2.1 hfile⟩ hw
  | unborn => rw [hs] at hlive; exact hlive.elim
  | answered => rw [hs] at hlive; exact hlive.elim
  | dropped => rw [hs] at hlive; exact hlive.elim

theorem Read.head_cases (r : Read) : r.head = [] ∨ r.head = [resHead] := by
  cases r with
  | data buf =>
    cases hp : parseRead buf with
    | error e => exact .inl (by simp only [Read.head, hp])
    | ok v => exact .inr (by simp only [Read.head, hp])
  | _ => exact .inl rfl

theorem Read.head_query (h : r.verdict behind = .query n) : r.head = [resHead] := by
  cases r with
  | data buf =>
    simp only [Read.verdict] at h
    unfold Read.head
    split at h
    · cases h
    · rename_i hp
      simp only [hp]
  | _ => cases h

theorem Agrees.hungUp (h : Agrees scale s b) (hfile : s.files fd = some (.conn id))
    (hf : s.fds fd = some .readCb) (hw : ¬ s.Waiting fd) {who : Actor}
    (ht : Trace who (some (.conn id)) none r.head log) :
    Agrees scale (s.hungUp fd log) (b.tell id (.dropped (r.head ≠ []))) := by
  have hquiet := h.quiet hfile hw
  -- nothing else has to do with the descriptor
  have hother {d : Fd} {file : File} (hd : s.files d = some file) (hne : file ≠ .conn id) :
      (s.hungUp fd log).files d = some file := by
    have hdfd : d ≠ fd := by
      rintro rfl
      exact hne (Option.some.inj (hd.symm.trans hfile))
    rw [hungUp_files, if_neg hdfd]
    exact hd
  have hback {d : Fd} {file : File} (hd : (s.hungUp fd log).files d = some file) :
      d ≠ fd ∧ s.files d = some file := by
    rw [hungUp_files] at hd
    split at hd
    · cases hd
    · rename_i hne
      exact ⟨hne, hd⟩
  have hheap {p : Nat} {c : Client} (hc : s.heap p = some (.client c)) :
      (s.hungUp fd log).heap p = some (.client c) := by
    have hp := h.inv.ptr (show s.heap p ≠ none by simp [hc])
    rw [hungUp_heap, if_neg (by omega)]
    exact hc
  refine ⟨h.inv.hungUp hf hw, h.nextConn, h.nextPg, fun id' => ?_, fun id' => ?_,
    fun hd hd' => h.one (hback hd).2 (hback hd').2, fun id' hid => ?_, fun {p c} hc => ?_,
    fun {id' tile} hid => ?_, fun {q} hq => ?_, fun {d q} hd => ?_, h.bufs⟩
  · rw [ht.sent_eq rfl, h.sent, tell_story]
    by_cases hid : id' = id
    · rw [hid, if_pos rfl, if_pos rfl, hquiet]
      rcases r.head_cases with hr | hr <;> rw [hr] <;> rfl
    · rw [if_neg fun he => hid (File.conn.inj (Option.some.inj he)).symm, if_neg hid,
        List.append_nil]
  · rw [tell_story]
    by_cases hid : id' = id
    · rw [if_pos hid, hid]
      refine ⟨fun ⟨d, hd⟩ => ?_, fun hlive => hlive.elim⟩
      exact absurd (h.one (hback hd).2 hfile) (hback hd).1
    · rw [if_neg hid, ← h.live]
      refine exists_congr fun d => ⟨fun hd => (hback hd).2, fun hd => hother hd ?_⟩
      exact fun he => hid (File.conn.inj he)
  · have hne : id' ≠ id := by
      rintro rfl
      rw [h.unborn id' hid] at hquiet
      cases hquiet
    rw [tell_story, if_neg hne]
    exact h.unborn id' hid
  · obtain ⟨hs, ha, hcfd, hdb⟩ := h.client (heap_hungUp hc)
    have hne : c.origin ≠ id := by
      rintro he
      rw [he, hquiet] at hs
      cases hs
    rw [tell_story, if_neg hne]
    exact ⟨hs, ha, hother hcfd fun he => hne (File.conn.inj he), hother hdb File.noConfusion⟩
  · rw [tell_story] at hid
    split at hid
    · cases hid
    · obtain ⟨p, c, hc, horigin⟩ := h.asked hid
      exact ⟨p, c, hheap hc, horigin⟩
  · obtain ⟨p, c, hc, hcq⟩ := h.owned (show s.pgs q ≠ none from hq)
    exact ⟨p, c, hheap hc, hcq⟩
  · obtain ⟨p, c, hc, hcd⟩ := h.session (hback hd).2
    exact ⟨p, c, hheap hc, hcd⟩

theorem Agrees.ask (h : Agrees scale s b) (hfile : s.files fd = some (.conn id))
    (hf : s.fds fd = some .readCb) (hw : ¬ s.Waiting fd) (hn : s.Unused db.sock) {who : Actor}
    (ht : Trace who (some (.conn id)) none [resHead] log) :
    Agrees scale (s.asked fd n db log)
      { b.tell id (.asked n.tile) with
        asker := Function.update b.asker b.nextPg id, nextPg := b.nextPg + 1 } := by
  have hquiet := h.quiet hfile hw
  have horigin : s.connAt fd = id := by simp [connAt, hfile]
  have hkept {d : Fd} {file : File} (hd : s.files d = some file) :
      (s.asked fd n db log).files d = some file := by
    rw [asked_files, if_neg (Agrees.ne_unused hn hd)]
    exact hd
  have hheap {p : Nat} {c : Client} (hc : s.heap p = some (.client c)) :
      (s.asked fd n db log).heap p = some (.client c) := by
    have hp := h.inv.ptr (show s.heap p ≠ none by simp [hc])
    rw [asked_heap, if_neg (by omega)]
    exact hc
  have hnew : (s.asked fd n db log).heap s.nextPtr = some (.client (s.newClient fd n db)) := by
    rw [asked_heap, if_pos rfl]
  have hback {d : Fd} {i : Nat} (hd : (s.asked fd n db log).files d = some (.conn i)) :
      s.files d = some (.conn i) := by
    rw [asked_files] at hd
    split at hd
    · cases hd
    · exact hd
  refine ⟨h.inv.asked ⟨id, hfile⟩ hf hw hn, h.nextConn, congrArg (· + 1) h.nextPg, fun id' => ?_,
    fun id' => ?_, fun hd hd' => h.one (hback hd) (hback hd'), fun id' hid => ?_,
    fun {p c} hc => ?_, fun {id' tile} hid => ?_, fun {q} hq => ?_, fun {d q} hd => ?_, h.bufs⟩
  · rw [ht.sent_eq rfl, h.sent]
    show _ = ((b.tell id (.asked n.tile)).story id').bytes scale
    rw [tell_story]
    by_cases hid : id' = id
    · rw [hid, if_pos rfl, if_pos rfl, hquiet]
      rfl
    · rw [if_neg fun he => hid (File.conn.inj (Option.some.inj he)).symm, if_neg hid,
        List.append_nil]
  · show _ ↔ ((b.tell id (.asked n.tile)).story id').Live
    have hfiles : (∃ d, (s.asked fd n db log).files d = some (.conn id')) ↔
        ∃ d, s.files d = some (.conn id') :=
      exists_congr fun d => ⟨hback, hkept⟩
    rw [hfiles, h.live, tell_story]
    by_cases hid : id' = id
    · rw [if_pos hid, hid, hquiet]
      exact Iff.rfl
    · rw [if_neg hid]
  · show (b.tell id (.asked n.tile)).story id' = .unborn
    have hne : id' ≠ id := by
      rintro rfl
      rw [h.unborn id' hid] at hquiet
      cases hquiet
    rw [tell_story, if_neg hne]
    exact h.unborn id' hid
  · show (b.tell id (.asked n.tile)).story c.origin = .asked c.tile ∧
      Function.update b.asker b.nextPg id c.conn = c.origin ∧ _
    rcases heap_asked hc with ⟨-, hcell⟩ | ⟨-, hc⟩
    · cases hcell
      refine ⟨?_, ?_, ?_, by rw [asked_files, if_pos rfl]⟩
      · rw [tell_story, if_pos horigin]
      · rw [h.nextPg, Function.update_self, horigin]
      · rw [horigin]
        exact hkept hfile
    · obtain ⟨hs, ha, hcfd, hdb⟩ := h.client hc
      have hne : c.origin ≠ id := by
        rintro he
        rw [he, hquiet] at hs
        cases hs
      have hconn : c.conn ≠ b.nextPg := by
        rw [h.nextPg]
        exact (h.inv.lt hc).ne
      rw [tell_story, if_neg hne, Function.update_of_ne hconn]
      exact ⟨hs, ha, hkept hcfd, hkept hdb⟩
  · have hid : (b.tell id (.asked n.tile)).story id' = .asked tile := hid
    rw [tell_story] at hid
    split at hid
    · rename_i he
      exact ⟨_, _, hnew, horigin.trans he.symm⟩
    · obtain ⟨p, c, hc, hco⟩ := h.asked hid
      exact ⟨p, c, hheap hc, hco⟩
  · rw [asked_pgs] at hq
    split at hq
    · rename_i he
      exact ⟨_, _, hnew, he.symm⟩
    · obtain ⟨p, c, hc, hcq⟩ := h.owned hq
      exact ⟨p, c, hheap hc, hcq⟩
  · rw [asked_files] at hd
    split at hd
    · rename_i he
      exact ⟨_, _, hnew, he.symm⟩
    · obtain ⟨p, c, hc, hcd⟩ := h.session hd
      exact ⟨p, c, hheap hc, hcd⟩

theorem Agrees.answer (h : Agrees scale s b) (hc : s.heap p = some (.client c))
    {writes : List (List UInt8)} (hwrites : writes.flatten = encode (chunks scale c.tile rows))
    {who : Actor} {d : Option File} (ht : Trace who (s.files c.fd) d writes log) :
    Agrees scale (s.answered p c log) (b.tell c.origin (.answered c.tile rows)) := by
  obtain ⟨hstory, -, hcfd, hcdb⟩ := h.client hc
  rw [hcfd] at ht
  -- the other clients have other connections and sessions
  have hother {q : Nat} {d : Client} (hne : q ≠ p) (hd : s.heap q = some (.client d)) :
      d.origin ≠ c.origin ∧ d.conn ≠ c.conn ∧ d.dbfd ≠ c.dbfd := by
    obtain ⟨-, -, hdfd, hddb⟩ := h.client hd
    have hconn : d.conn ≠ c.conn := fun he => hne (h.inv.inj hd hc he)
    refine ⟨fun he => ?_, hconn, fun he => ?_⟩
    · rw [he] at hdfd
      exact hne (h.inv.alone hd hc (h.one hdfd hcfd))
    · rw [he, hcdb] at hddb
      exact hconn (File.db.inj (Option.some.inj hddb)).symm
  have hback {d : Fd} {file : File} (hd : (s.answered p c log).files d = some file) :
      d ≠ c.fd ∧ d ≠ c.dbfd ∧ s.files d = some file := by
    rw [answered_files] at hd
    split at hd
    · cases hd
    · rename_i h₁
      split at hd
      · cases hd
      · rename_i h₂
        exact ⟨h₁, h₂, hd⟩
  have hkept {d : Fd} {file : File} (hd : s.files d = some file) (h₁ : file ≠ .conn c.origin)
      (h₂ : file ≠ .db c.conn) : (s.answered p c log).files d = some file := by
    have hd₁ : d ≠ c.fd := by
      rintro rfl
      exact h₁ (Option.some.inj (hd.symm.trans hcfd))
    have hd₂ : d ≠ c.dbfd := by
      rintro rfl
      exact h₂ (Option.some.inj (hd.symm.trans hcdb))
    rw [answered_files, if_neg hd₁, if_neg hd₂]
    exact hd
  have hheap {q : Nat} {d : Client} (hne : q ≠ p) (hd : s.heap q = some (.client d)) :
      (s.answered p c log).heap q = some (.client d) := by
    rw [answered_heap, if_neg hne]
    exact hd
  refine ⟨h.inv.answered hc, h.nextConn, h.nextPg, fun id => ?_, fun id => ?_,
    fun hd hd' => h.one (hback hd).2.2 (hback hd').2.2, fun id hid => ?_, fun {q d} hd => ?_,
    fun {id tile} hid => ?_, fun {q} hq => ?_, fun {d q} hd => ?_, h.bufs⟩
  · rw [ht.sent_eq rfl, h.sent, tell_story]
    by_cases hid : id = c.origin
    · rw [hid, if_pos rfl, if_pos rfl, hstory, hwrites]
      rfl
    · rw [if_neg fun he => hid (File.conn.inj (Option.some.inj he)).symm, if_neg hid,
        List.append_nil]
  · rw [tell_story]
    by_cases hid : id = c.origin
    · rw [if_pos hid, hid]
      refine ⟨fun ⟨d, hd⟩ => ?_, fun hlive => hlive.elim⟩
      exact absurd (h.one (hback hd).2.2 hcfd) (hback hd).1
    · rw [if_neg hid, ← h.live]
      refine exists_congr fun d => ⟨fun hd => (hback hd).2.2, fun hd => hkept hd ?_ ?_⟩
      · exact fun he => hid (File.conn.inj he)
      · exact File.noConfusion
  · have hne : id ≠ c.origin := by
      rintro rfl
      rw [h.unborn _ hid] at hstory
      cases hstory
    rw [tell_story, if_neg hne]
    exact h.unborn id hid
  · obtain ⟨hne, hd⟩ := heap_answered hd
    obtain ⟨h₁, h₂, -⟩ := hother hne hd
    obtain ⟨hs, ha, hdfd, hddb⟩ := h.client hd
    rw [tell_story, if_neg h₁]
    exact ⟨hs, ha, hkept hdfd (fun he => h₁ (File.conn.inj he)) File.noConfusion,
      hkept hddb File.noConfusion fun he => h₂ (File.db.inj he)⟩
  · rw [tell_story] at hid
    split at hid
    · cases hid
    · rename_i hne
      obtain ⟨q, d, hd, rfl⟩ := h.asked hid
      have hq : q ≠ p := by
        rintro rfl
        rw [hc] at hd
        cases hd
        exact hne rfl
      exact ⟨q, d, hheap hq hd, rfl⟩
  · rw [answered_pgs] at hq
    split at hq
    · exact absurd rfl hq
    · rename_i hne
      obtain ⟨q', d, hd, rfl⟩ := h.owned hq
      have hq' : q' ≠ p := by
        rintro rfl
        rw [hc] at hd
        cases hd
        exact hne rfl
      exact ⟨q', d, hheap hq' hd, rfl⟩
  · obtain ⟨-, hne, hfile⟩ := hback hd
    obtain ⟨q', e, he, rfl⟩ := h.session hfile
    have hq' : q' ≠ p := by
      rintro rfl
      rw [hc] at he
      cases he
      exact hne rfl
    exact ⟨q', e, hheap hq' he, rfl⟩

-- ---------------------------------------------------------------------------
-- Steps and runs
-- ---------------------------------------------------------------------------

/-- What `fmt_res_bin` writes for such a result. -/
theorem body_chunks (junk : Nat → UInt8) (tile : Tms) (hfuel : totalLength rows ≤ fuel)
    (hw : ∀ t ∈ rows, t.Walkable)
    (hrows : rows = [] ∨ Roomy rows ∧ ∃ t ∈ rows, t.geom.leaves ≠ []) :
    ∃ writes, body scale junk fuel tile (rows.map TreeRow.row) = .ok writes ∧
      writes.flatten = encode (chunks scale tile rows) := by
  rcases hrows with rfl | ⟨hfit, t, ht, hl⟩
  · exact ⟨_, rfl, rfl⟩
  · obtain ⟨writes, hb, hflat⟩ := @body_fits scale tile rows fuel junk hw hfit
      (List.ne_nil_of_mem ht) hfuel
    have hdata : (records scale tile rows).flatMap Record.encode ≠ [] := by
      intro hnil
      exact hl (records_eq_nil.mp hnil t ht)
    refine ⟨writes, hb, ?_⟩
    rw [hflat]
    simp only [chunks, if_neg hdata, encode, List.flatMap_cons, List.flatMap_nil, List.append_nil]

/-- With numbers that have a bit and nobody gone, what the server does the
process does. -/
theorem Arrival.happens (hs : s.step scale junk fuel a.event = .ok s')
    (hin : a.moment.event.InSet) : (process scale junk fuel).step s a.moment = .ok s' := by
  have hstill : a.moment.gone = true → s.wrote s' = false := Bool.noConfusion
  exact happens_ok hs hstill (not_beyond hin)

/-- Whatever comes in is dealt with, as it is written down. -/
theorem Agrees.step (h : Agrees scale s b) (he : (process scale junk fuel).enabled s a.moment)
    (hfair : a.Fair fuel s) : ∃ s', (process scale junk fuel).step s a.moment = .ok s' ∧
      Agrees scale s' (b.note s.files a) := by
  obtain ⟨he, hin⟩ := he
  cases a with
  | connection newfd =>
    rcases he.2 with rfl | hu
    · exact ⟨s, Arrival.happens rfl hin, h⟩
    · have hne : newfd ≠ -1 := by
        rintro rfl
        exact absurd hu.1.1 (by decide)
      have hok := acceptCb_ok hu.1 (h.inv.unregistered hu.2)
      refine ⟨_, Arrival.happens hok hin, ?_⟩
      rw [Stories.note, if_neg hne]
      exact h.accepted hu
  | bytes fd r behind db =>
    obtain ⟨⟨id, hfile⟩, hf, -, hu⟩ := he
    obtain ⟨hv, hdb, hr, hw⟩ := hfair
    have hreg : s.fds fd ≠ none := by simp [hf]
    cases hverdict : r.verdict behind with
    | keep => exact absurd (Read.verdict_keep hverdict) hr
    | abort => exact absurd hverdict hv
    | close =>
      obtain ⟨log, hok, htrace⟩ := readCb_close db hverdict (h.inv.range hreg) hreg
      rw [hfile] at htrace
      refine ⟨_, Arrival.happens hok hin, ?_⟩
      simp only [Stories.note, hfile, hverdict]
      exact h.hungUp hfile hf hw htrace
    | query n =>
      have hn := hu hdb.1 hdb.2
      obtain ⟨log, hok, htrace⟩ :=
        readCb_query s fd hverdict hdb hn.1 (h.inv.unregistered hn.2)
      rw [hfile, Read.head_query hverdict] at htrace
      refine ⟨_, Arrival.happens hok hin, ?_⟩
      simp only [Stories.note, hfile, hverdict]
      exact h.ask hfile hf hw hn htrace
  | result fd rows =>
    obtain ⟨-, p, hp⟩ := he
    obtain ⟨hfuel, hw, hrows⟩ := hfair
    obtain ⟨c, hc, rfl⟩ := h.inv.owner hp
    obtain ⟨hstory, hasker, -, hdb⟩ := h.client hc
    obtain ⟨writes, hb, hwrites⟩ : ∃ writes, body scale junk fuel c.tile _ = .ok writes ∧
        writes.flatten = encode (chunks scale c.tile rows) :=
      body_chunks junk c.tile hfuel hw hrows
    obtain ⟨log, hok, htrace⟩ := fmtResBin_ok hc hb (h.inv.answerable hc)
    refine ⟨s.answered p c log, Arrival.happens ?_ hin, ?_⟩
    · show s.step scale junk fuel (.reply c.dbfd (rows.map TreeRow.row)) = _
      simp only [Server.step, hp, dbBinCb]
      exact hok
    · rw [note_result hdb (hasker ▸ hstory), hasker]
      exact h.answer hc hwrites htrace

theorem agrees_of_reachable (hr : Server.InRange listenSock)
    (h : Reachable (storied scale junk fuel) (Server.init listenSock, .blank) (s, b)) :
    Agrees scale s b := by
  have hinit : Agrees scale (Server.init listenSock) .blank := .init hr
  refine @Reachable.invariant _ _ _ (storied scale junk fuel)
    (fun st : Server × Stories => Agrees scale st.1 st.2) _ _ h hinit ?_
  rintro ⟨s, b⟩ a st' hagrees ⟨he, hfair⟩ hstep
  obtain ⟨s', hok, hagrees'⟩ := hagrees.step he hfair
  obtain ⟨s'', hok', h⟩ := bind_eq_ok.mp hstep
  cases hok.symm.trans hok'
  cases h
  exact hagrees'

/-- The process is where the stories are, and goes on from there. -/
structure Follows (scale : Scale) (junk : Nat → UInt8) (fuel : Nat) (s : Server) (b : Stories) :
    Prop where
  sent : ∀ id, s.sent (.conn id) = (b.story id).bytes scale
  live : ∀ id, (∃ fd, s.files fd = some (.conn id)) ↔ (b.story id).Live
  /-- When nobody waits, nothing is held but the connections. -/
  idle : (∀ id tile, b.story id ≠ .asked tile) → (∀ p, s.heap p = none) ∧ (∀ q, s.pgs q = none) ∧
    (∀ fd q, s.files fd ≠ some (.db q)) ∧ s.bufs = 0
  goesOn : ∀ a, (storied scale junk fuel).enabled (s, b) a →
    ∃ st, (storied scale junk fuel).step (s, b) a = .ok st

/-- The head of every response, as `phr_parse_response` hands it out. -/
def okHead : Response :=
  ⟨1, 200, ascii "OK", [⟨some (ascii "Content-Type"), ascii "application/octet-stream"⟩,
    ⟨some (ascii "Transfer-Encoding"), ascii "chunked"⟩]⟩

theorem HeadersText.mono {first : Bool} {left left' : Nat} {headers : List Header}
    {c : List UInt8} (h : HeadersText first left headers c) (hle : left ≤ left') :
    HeadersText first left' headers c := by
  induction h generalizing left' with
  | done heol => exact .done heol
  | line hline _ ih =>
    obtain ⟨k, rfl⟩ := Nat.exists_eq_add_of_le' hle
    exact .line hline (ih (Nat.le_add_left _ _))

theorem okHead_text {maxHeaders : Nat} (h : 2 ≤ maxHeaders) :
    ResponseText maxHeaders okHead resHead := by
  have hparse : parseResponse 2 resHead = .ok (okHead, []) := by decide +kernel
  obtain ⟨c, hc, htext⟩ := (parses_parseResponse 2 _ _ _).mp hparse
  rw [List.append_nil] at hc
  rw [hc]
  generalize okHead = response at htext
  cases htext with
  | intro hversion hstatus hmsg heol hlines =>
    exact .intro hversion hstatus hmsg heol (hlines.mono h)

theorem parse_head {maxHeaders : Nat} (h : 2 ≤ maxHeaders) (rest : List UInt8) :
    phrParseResponse (resHead ++ rest) maxHeaders 0 = .ok (okHead, resHead.length) := by
  refine phrParseResponse_iff.mpr ⟨by rw [List.length_append]; exact Nat.le_add_right _ _, ?_⟩
  rw [List.take_left]
  exact okHead_text h

/-- Records that were answered with can be read back. -/
theorem answered_wf {st : Server × Stories} {tile : Tms}
    (h : Reachable (storied scale junk fuel) (Server.init listenSock, .blank) st)
    (hid : st.2.story id = .answered tile rows) : ∀ r ∈ records scale tile rows, r.Wf := by
  revert id tile rows
  refine @Reachable.invariant _ _ _ (storied scale junk fuel)
    (fun st : Server × Stories => ∀ {id rows tile}, st.2.story id = .answered tile rows →
      ∀ r ∈ records scale tile rows, r.Wf) _ _ h (fun hid => nomatch hid) ?_
  rintro ⟨s, b⟩ a st' hold ⟨-, hfair⟩ hstep id rows tile hid
  obtain ⟨s', -, h⟩ := bind_eq_ok.mp hstep
  cases h
  have htell {b : Stories} {id' : Nat} {story : Story}
      (hold : ∀ {id tile rows}, b.story id = .answered tile rows →
        ∀ r ∈ records scale tile rows, r.Wf)
      (hid : (b.tell id' story).story id = .answered tile rows) :
      story = .answered tile rows ∨ ∀ r ∈ records scale tile rows, r.Wf := by
    rw [tell_story] at hid
    split at hid
    · exact .inl hid
    · exact .inr (hold hid)
  cases a with
  | connection newfd =>
    rw [Stories.note] at hid
    split at hid
    · exact hold hid
    · exact (htell hold hid).resolve_left Story.noConfusion
  | bytes fd r behind db =>
    simp only [Stories.note] at hid
    split at hid
    · exact (htell hold hid).resolve_left Story.noConfusion
    · exact (htell hold hid).resolve_left Story.noConfusion
    · exact hold hid
  | result fd rows' =>
    simp only [Stories.note] at hid
    split at hid
    · split at hid
      · rcases htell hold hid with he | hwf
        · cases he
          obtain ⟨-, -, hrows⟩ := hfair
          refine records_wf ?_
          rcases hrows with rfl | ⟨hfit, -⟩
          · exact Nat.two_pow_pos 31
          · exact ((roomy_records scale tile rows).mp hfit).trans_lt (chunkCnt_lt rows)
        · exact hwf
      · exact hold hid
    · exact hold hid

/-- **From request to tile.** A client whose story has ended with an answer
parses a head and a body, and reads the records of its result. -/
theorem answered_received {tile : Tms} {maxHeaders : Nat} (hr : Server.InRange listenSock)
    (hm : 2 ≤ maxHeaders)
    (h : Reachable (storied scale junk fuel) (Server.init listenSock, .blank) (s, b))
    (hid : b.story id = .answered tile rows) :
    ∃ n data, phrParseResponse (s.sent (.conn id)) maxHeaders 0 = .ok (okHead, n) ∧
      decode ((s.sent (.conn id)).drop n) = some (data, []) ∧
      readRecords data = some (records scale tile rows) := by
  have hsent : s.sent (.conn id) = resHead ++ encode (chunks scale tile rows) := by
    have hagrees : Agrees scale s b := agrees_of_reachable hr h
    rw [hagrees.sent, hid]
    rfl
  rw [hsent]
  refine ⟨_, (records scale tile rows).flatMap Record.encode, parse_head hm _, ?_,
    readRecords_encode (answered_wf h hid)⟩
  rw [List.drop_left]
  have hdecode : decode (encode (chunks scale tile rows) ++ []) = _ :=
    decode_encode (fun data hdata => ?_) []
  · rw [List.append_nil] at hdecode
    rw [hdecode]
    simp only [chunks]
    split
    · rename_i hnil
      rw [hnil]
      rfl
    · simp
  · simp only [chunks] at hdata
    split at hdata
    · cases hdata
    · rename_i hne
      rw [List.mem_singleton.mp hdata]
      exact hne

end

-- ---------------------------------------------------------------------------
-- One client
-- ---------------------------------------------------------------------------

abbrev plainStoried : System (Server × Stories) Arrival Stop :=
  storied (fun _ _ _ => 0) (fun _ => 0) 25

theorem storied_step {s s' : Server} {b : Stories} {a : Arrival} {scale : Scale}
    {junk : Nat → UInt8} {fuel : Nat} (h : (process scale junk fuel).step s a.moment = .ok s') :
    (storied scale junk fuel).step (s, b) a = .ok (s', b.note s.files a) :=
  bind_eq_ok.mpr ⟨s', h, rfl⟩

def oneQuiet : Stories := Stories.blank.note (Server.init 3).files (.connection 5)

def oneAsked : Stories := oneQuiet.note oneConn.files (.bytes 5 tileRequest [] (newDb 6))

theorem oneAsked_reachable : ∃ log,
    Reachable plainStoried (Server.init 3, .blank) (waiting log, oneAsked) := by
  obtain ⟨log, h₂⟩ := oneConn_request
  have h₁ : (Server.init 3).acceptCb 5 = .ok oneConn := (server_accept ..).symm.trans init_accept
  have h₂ : oneConn.readCb 5 tileRequest [] (newDb 6) = .ok (waiting log) :=
    (server_readable ..).symm.trans h₂
  have hquiet : plainStoried.enabled (Server.init 3, .blank) (.connection 5) :=
    ⟨⟨init_accept_enabled, show InSet 5 by decide⟩, trivial⟩
  have hasked : plainStoried.enabled (oneConn, oneQuiet) (.bytes 5 tileRequest [] (newDb 6)) := by
    refine ⟨⟨oneConn_request_enabled, show InSet 6 by decide⟩, ?_, by decide, Read.noConfusion,
      oneConn_nobody 5⟩
    rw [tileRequest_query]
    exact Verdict.noConfusion
  have hfirst : Reachable plainStoried (Server.init 3, .blank) (oneConn, oneQuiet) :=
    Reachable.refl.step hquiet (storied_step (Arrival.happens h₁ hquiet.1.2))
  exact ⟨log, hfirst.step hasked (storied_step (Arrival.happens h₂ hasked.1.2))⟩

theorem oneAnswered_reachable : ∃ s b, Reachable plainStoried (Server.init 3, .blank) (s, b) ∧
    b.story 0 = .answered (Longs.tile ⟨3, 2, 1⟩) [something] := by
  obtain ⟨log, hreach⟩ := oneAsked_reachable
  have hagrees : Agrees (fun _ _ _ => 0) (waiting log) oneAsked :=
    agrees_of_reachable (by decide) hreach
  have hc : (waiting log).heap 0 = some (.client firstClient) := rfl
  obtain ⟨hstory, hasker, -, hdb⟩ := hagrees.client hc
  obtain ⟨-, hw, hroom⟩ := oneLine_walkable
  have henabled : plainStoried.enabled (waiting log, oneAsked) (.result 6 [something]) :=
    ⟨⟨⟨⟨0, rfl⟩, 0, rfl⟩, trivial⟩, by decide, hw,
      .inr ⟨hroom, something, List.mem_singleton_self _, by decide⟩⟩
  obtain ⟨s', hok, -⟩ : ∃ s', (process (fun _ _ _ => 0) (fun _ => 0) 25).step (waiting log)
      (Arrival.result 6 [something]).moment = .ok s' ∧ _ := hagrees.step henabled.1 henabled.2
  refine ⟨s', _, hreach.step henabled (storied_step hok), ?_⟩
  have hnote : oneAsked.note (waiting log).files (.result 6 [something]) = _ :=
    note_result hdb (hasker ▸ hstory)
  rw [hnote, hasker, tell_story]
  exact if_pos rfl

theorem answered_received_one : ∃ sent n data, phrParseResponse sent 2 0 = .ok (okHead, n) ∧
    decode (sent.drop n) = some (data, []) ∧
    readRecords data = some (records (fun _ _ _ => 0) (Longs.tile ⟨3, 2, 1⟩) [something]) := by
  obtain ⟨s, b, hreach, hstory⟩ := oneAnswered_reachable
  exact ⟨s.sent (.conn 0), answered_received (by decide) le_rfl hreach hstory⟩

end Canvasback
