import Canvasback.Server.Sound
import Canvasback.TokenLoop.Settled

/-!
# Requests in packets

`read_cb` parses what one `read` returns and asserts that it is a request. So a
request has to come whole, in the first packet; then what comes with it in that
packet takes the place of what the buffer held, and each further packet is a
request of its own unless the connection is closed by then.
-/

namespace Canvasback

open Runs Server CString Incremental

/-- What one `read` returns, and what libpq does if it asks for a tile. -/
structure Packet where
  data : List UInt8
  db : Libpq

/-- The calls of `read_cb` for these packets, while there is a connection to
read from; `stack` is what memory holds from `buf` on before each of them. -/
def Server.feed (fd : Fd) : (stack : Nat → List UInt8) → List Packet → Server → Except Stop Server
  | _, [], s => .ok s
  | stack, p :: ps, s =>
    if s.fds fd = some .readCb then do
      let s ← s.readCb fd (.data p.data) ((stack 0).drop p.data.length) p.db
      feed fd (fun k => stack (k + 1)) ps s
    else .ok s

/-- However the bytes come, `read_cb` does with them what it does with a request
that comes alone, waits if there is none yet, and closes the connection if there
can be none. -/
def Server.Independent (s : Server) (fd : Fd) (p : Packet) (ps : List Packet) : Prop :=
  ∀ stack, ∃ s', s.feed fd stack (p :: ps) = .ok s' ∧
    match parseRead ((p :: ps).flatMap Packet.data) with
    | .ok (_, n) =>
      s.readCb fd (.data (((p :: ps).flatMap Packet.data).take n)) ((stack 0).drop n) p.db = .ok s'
    | .error .incomplete =>
      s'.files fd = s.files fd ∧ s'.fds fd = some .readCb ∧ ∀ file, s'.sent file = s.sent file
    | .error .malformed => s'.files fd = none ∧ s'.fds fd = none ∧ s.OthersKept s' fd

section
variable {s s' s₁ : Server} {fd listenSock : Fd} {buf buf' behind behind' : List UInt8}
  {db : Libpq} {n n' : Longs} {log log' : List Entry} {scale : Scale} {junk : Nat → UInt8}
  {fuel k k' : Nat} {p : Packet} {ps : List Packet} {request : Request} {r : Read} {e : Halt}

-- ---------------------------------------------------------------------------
-- One packet
-- ---------------------------------------------------------------------------

theorem readCb_congr (db : Libpq) (hp : parseRead buf = .ok (request, k))
    (hp' : parseRead buf' = .ok (request, k'))
    (h : tokenLoop ((buf ++ behind).drop request.pathOff) =
      tokenLoop ((buf' ++ behind').drop request.pathOff)) :
    s.readCb fd (.data buf) behind db = s.readCb fd (.data buf') behind' db := by
  simp only [readCb, hp, hp', h]

/-- What a call leaves that comes back from a request. -/
theorem readCb_request (hp : parseRead buf = .ok (request, k))
    (h : s.readCb fd (.data buf) behind db = .ok s') :
    (tokenLoop ((buf ++ behind).drop request.pathOff) = .close ∧ ∃ log, s' = s.hungUp fd log) ∨
    ∃ n log, tokenLoop ((buf ++ behind).drop request.pathOff) = .tile n ∧ db.Connects ∧
      s.fds db.sock = none ∧ s' = s.asked fd n db log := by
  cases ho : tokenLoop ((buf ++ behind).drop request.pathOff) with
  | close =>
    have hv := Read.verdict_close hp ho
    rcases readCb_inv h with hv' | ⟨-, hr, hf⟩ | ⟨n, hv', -⟩
    · rw [hv] at hv'
      cases hv'
    · obtain ⟨log, hok, -⟩ := readCb_close db hv hr hf
      rw [hok, Except.ok.injEq] at h
      exact .inl ⟨rfl, log, h.symm⟩
    · rw [hv] at hv'
      cases hv'
  | tile n =>
    have hv := Read.verdict_query hp ho
    rcases readCb_inv h with hv' | ⟨hv', -⟩ | ⟨n', -, hdb, hr, hf⟩
    · rw [hv] at hv'
      cases hv'
    · rw [hv] at hv'
      cases hv'
    · obtain ⟨log, hok, -⟩ := readCb_query s fd hv hdb hr hf
      rw [hok, Except.ok.injEq] at h
      exact .inr ⟨n, log, rfl, hdb, hf, h.symm⟩

theorem hungUp_ne_asked (hf : s.fds fd = some .readCb) :
    s.hungUp fd log ≠ s.asked fd n db log' := by
  intro h
  have := congrFun (congrArg Server.fds h) fd
  rw [hungUp_fds, if_pos rfl, asked_fds, hf] at this
  split at this <;> cases this

theorem asked_tile (h : s.asked fd n db log = s.asked fd n' db log') : n.tile = n'.tile := by
  have := congrFun (congrArg Server.heap h) s.nextPtr
  rw [asked_heap, asked_heap, if_pos rfl, if_pos rfl] at this
  simp only [Option.some.injEq, Cell.client.injEq, Client.mk.injEq] at this
  exact this.2.2.1

theorem readCb_nextPtr (h : s.readCb fd r behind db = .ok s') : s'.nextPtr = s.nextPtr + 1 := by
  rcases readCb_inv h with hv | ⟨hv, hr, hf⟩ | ⟨n, hv, hdb, hr, hf⟩
  · rw [readCb_keep hv, Except.ok.injEq] at h
    exact h ▸ rfl
  · obtain ⟨log, hok, -⟩ := readCb_close db hv hr hf
    rw [hok, Except.ok.injEq] at h
    exact h ▸ rfl
  · obtain ⟨log, hok, -⟩ := readCb_query s fd hv hdb hr hf
    rw [hok, Except.ok.injEq] at h
    exact h ▸ rfl

-- ---------------------------------------------------------------------------
-- All packets
-- ---------------------------------------------------------------------------

theorem feed_cons (hf : s.fds fd = some .readCb) (stack : Nat → List UInt8) (p : Packet)
    (ps : List Packet) : s.feed fd stack (p :: ps) =
      s.readCb fd (.data p.data) ((stack 0).drop p.data.length) p.db >>=
        Server.feed fd (fun k => stack (k + 1)) ps := by
  rw [Server.feed, if_pos hf]

/-- The assertion fails on what is no request yet, or none at all. -/
theorem feed_abort (hf : s.fds fd = some .readCb) (hp : parseRead p.data = .error e)
    (stack : Nat → List UInt8) (ps : List Packet) :
    s.feed fd stack (p :: ps) = .error .abort := by
  rw [feed_cons hf, readCb_abort (by simp only [Read.verdict, hp])]
  rfl

theorem feed_closed (hf : s.fds fd ≠ some .readCb) (stack : Nat → List UInt8) (ps : List Packet) :
    s.feed fd stack ps = .ok s := by
  cases ps with
  | nil => rfl
  | cons p ps => rw [Server.feed, if_neg hf]

theorem feed_nextPtr {stack : Nat → List UInt8} (h : s.feed fd stack ps = .ok s') :
    s.nextPtr ≤ s'.nextPtr := by
  induction ps generalizing s stack with
  | nil =>
    cases h
    exact le_rfl
  | cons p ps ih =>
    by_cases hf : s.fds fd = some .readCb
    · rw [feed_cons hf] at h
      obtain ⟨s₁, h₁, h⟩ := bind_eq_ok.mp h
      have := readCb_nextPtr h₁
      have := ih h
      omega
    · rw [feed_closed hf] at h
      cases h
      exact le_rfl

/-- What the loop is put on, by what stands behind the request. -/
theorem request_line (hp : parseRead buf = .ok (request, k)) : ∃ line,
    (buf.take k).drop request.pathOff = line ++ [10] ∧ ∀ more,
      (buf ++ more).drop request.pathOff = line ++ 10 :: (buf.drop k ++ more) ∧
      (buf.take k ++ more).drop request.pathOff = line ++ 10 :: more := by
  obtain ⟨d, tail, htake, -, -, -, hoff⟩ := parseRead_path hp
  obtain ⟨hk, -⟩ := parseRead_local hp
  have hle : request.pathOff ≤ (buf.take k).length := by
    rw [List.length_take]
    omega
  have hline : (buf.take k).drop request.pathOff =
      (request.path ++ 32 :: (ascii "HTTP/1." ++ d :: tail)) ++ [10] := by simp [htake]
  have hmore (more : List UInt8) : (buf.take k ++ more).drop request.pathOff =
      (request.path ++ 32 :: (ascii "HTTP/1." ++ d :: tail)) ++ 10 :: more := by
    rw [List.drop_append_of_le_length hle, hline, List.append_assoc, List.singleton_append]
  refine ⟨_, hline, fun more => ⟨?_, hmore more⟩⟩
  rw [← hmore, ← List.append_assoc, List.take_append_drop]

/-- The request at the front of the first packet is that of all packets. -/
theorem request_first (hp : parseRead p.data = .ok (request, k)) (ps : List Packet) :
    parseRead ((p :: ps).flatMap Packet.data) = .ok (request, k) ∧
      ((p :: ps).flatMap Packet.data).take k = p.data.take k := by
  obtain ⟨hk, hlocal⟩ := parseRead_local hp
  have hsplit : (p :: ps).flatMap Packet.data =
      p.data.take k ++ (p.data.drop k ++ ps.flatMap Packet.data) := by
    rw [List.flatMap_cons, ← List.append_assoc, List.take_append_drop]
  refine ⟨hsplit ▸ hlocal _, ?_⟩
  rw [List.flatMap_cons, List.take_append_of_le_length hk]

/-- What a request does whose packets are read as one. -/
theorem same_of_independent (hf : s.fds fd = some .readCb)
    (hp : parseRead p.data = .ok (request, k)) (hi : s.Independent fd p ps) (stack : List UInt8) :
    (tokenLoop ((p.data ++ stack.drop p.data.length).drop request.pathOff)).tile? =
        (tokenLoop ((p.data.take k ++ stack.drop k).drop request.pathOff)).tile? ∧
      (tokenLoop ((p.data.take k ++ stack.drop k).drop request.pathOff) = .close ∨
        ps = [] ∧ p.db.Connects) := by
  obtain ⟨s', hfeed, hout⟩ := hi fun _ => stack
  obtain ⟨hall, htake⟩ := request_first hp ps
  have hsingle : parseRead (p.data.take k) = .ok (request, k) := by
    simpa using (parseRead_local hp).2 []
  rw [hall] at hout
  simp only [htake] at hout
  rw [feed_cons hf] at hfeed
  obtain ⟨s₁, h₁, hfeed⟩ := bind_eq_ok.mp hfeed
  have hptr := readCb_nextPtr hout
  rcases readCb_request hp h₁ with ⟨hclose, log, rfl⟩ | ⟨n, log, htile, hdb, hfree, rfl⟩
  · rw [feed_closed (by simp), Except.ok.injEq] at hfeed
    subst hfeed
    rcases readCb_request hsingle hout with ⟨hclose', -⟩ | ⟨n', log', -, -, -, heq⟩
    · exact ⟨by rw [hclose, hclose'], .inl hclose'⟩
    · exact absurd heq (hungUp_ne_asked hf)
  · cases ps with
    | cons q ps =>
      -- a second call allocates a second `client_t`
      have hstill : (s.asked fd n p.db log).fds fd = some .readCb := by
        have hne : fd ≠ p.db.sock := by
          rintro rfl
          rw [hfree] at hf
          cases hf
        rw [asked_fds, if_neg hne, hf]
      rw [feed_cons hstill] at hfeed
      obtain ⟨s₂, h₂, hfeed⟩ := bind_eq_ok.mp hfeed
      have h₂ptr := readCb_nextPtr h₂
      have hle := feed_nextPtr hfeed
      simp only [Server.asked] at h₂ptr
      omega
    | nil =>
      cases hfeed
      rcases readCb_request hsingle hout with ⟨-, log', heq⟩ | ⟨n', log', htile', -, -, heq⟩
      · exact absurd heq.symm (hungUp_ne_asked hf)
      · refine ⟨?_, .inr ⟨rfl, hdb⟩⟩
        rw [htile, htile', Outcome.tile?, Outcome.tile?, asked_tile heq]

/-- **Packet boundaries.** Packets are read as one request exactly if the first
holds a request, nothing comes with it or the request settles the tile, and the
loop gives up on it or nothing follows and the database connection comes
about. -/
theorem independent_iff (hr : Server.InRange listenSock)
    (hs : Reachable (server scale junk fuel) (Server.init listenSock) s)
    (he : s.Enabled (.readable fd (.data p.data) [] p.db)) :
    s.Independent fd p ps ↔ ∃ request k, parseRead p.data = .ok (request, k) ∧
      (p.data.length = k ∨ Settles ((p.data.take k).drop request.pathOff)) ∧
      (GivesUp ((p.data.take k).drop request.pathOff) ∨ ps = [] ∧ p.db.Connects) := by
  have h := sound_of_reachable hr hs
  obtain ⟨-, hf, -, hu⟩ := he
  constructor
  · intro hi
    cases hp : parseRead p.data with
    | error e =>
      obtain ⟨s', hfeed, -⟩ := hi fun _ => []
      rw [feed_abort hf hp] at hfeed
      cases hfeed
    | ok v =>
      obtain ⟨request, k⟩ := v
      obtain ⟨hk, -⟩ := parseRead_local hp
      obtain ⟨line, hline, hmore⟩ := request_line hp
      have hsame := same_of_independent hf hp hi
      refine ⟨request, k, rfl, ?_, ?_⟩
      · by_cases hlen : p.data.length = k
        · exact .inl hlen
        obtain ⟨j, hj⟩ : ∃ j, p.data.length = k + (j + 1) := ⟨p.data.length - k - 1, by omega⟩
        rw [hline]
        refine .inr (settles_of_same (k := j) fun u u' more hu hu' => ?_)
        -- what comes with the request is as good as anything else there
        have hany (u : List UInt8) (hu : u.length = j + 1) :
            (tokenLoop (line ++ 10 :: (p.data.drop k ++ more))).tile? =
              (tokenLoop (line ++ 10 :: (u ++ more))).tile? := by
          have := (hsame (List.replicate k 0 ++ (u ++ more))).1
          have hd₁ : (List.replicate k 0 ++ (u ++ more)).drop p.data.length = more := by
            rw [hj, ← List.drop_drop, List.drop_left' (by simp), List.drop_left' hu]
          have hd₂ : (List.replicate k 0 ++ (u ++ more)).drop k = u ++ more :=
            List.drop_left' (by simp)
          rwa [hd₁, hd₂, (hmore more).1, (hmore (u ++ more)).2] at this
        rw [← hany u hu, hany u' hu']
      · have hnone := (hsame []).2
        rwa [List.drop_nil, (hmore []).2, tokenLoop_close, ← hline] at hnone
  · rintro ⟨request, k, hp, hset, hend⟩ stack
    obtain ⟨line, hline, hmore⟩ := request_line hp
    obtain ⟨hall, htake⟩ := request_first hp ps
    have hsingle : parseRead (p.data.take k) = .ok (request, k) := by
      simpa using (parseRead_local hp).2 []
    have hloop : tokenLoop ((p.data ++ (stack 0).drop p.data.length).drop request.pathOff) =
        tokenLoop ((p.data.take k ++ (stack 0).drop k).drop request.pathOff) := by
      rcases hset with hlen | hset
      · rw [hlen, List.take_of_length_le hlen.le]
      · rw [hline] at hset
        rw [(hmore _).1, (hmore _).2, hset.tokenLoop_eq (p.data.drop k ++ _),
          hset.tokenLoop_eq ((stack 0).drop k)]
    have hone : s.readCb fd (.data p.data) ((stack 0).drop p.data.length) p.db = _ :=
      readCb_congr p.db hp hsingle hloop
    rw [hall]
    simp only [htake, feed_cons hf, ← hone]
    cases ho : tokenLoop ((p.data ++ (stack 0).drop p.data.length).drop request.pathOff) with
    | close =>
      have hreg : s.fds fd ≠ none := by simp [hf]
      obtain ⟨log, hok, -⟩ := readCb_close p.db (Read.verdict_close hp ho) (h.range hreg) hreg
      exact ⟨s.hungUp fd log, by rw [hok]; exact feed_closed (by simp) _ _, hok⟩
    | tile n =>
      rcases hend with hgive | ⟨rfl, hdb⟩
      · -- then the loop gave up
        rw [hline] at hgive
        have hset : Settles (line ++ [10]) := .inr (.inr hgive)
        rw [(hmore _).1, hset.tokenLoop_eq, tokenLoop_close.mpr hgive] at ho
        cases ho
      · have hn := hu hdb.1 hdb.2
        obtain ⟨log, hok, -⟩ :=
          readCb_query s fd (Read.verdict_query hp ho) hdb hn.1 (h.unregistered hn.2)
        exact ⟨s.asked fd n p.db log, by rw [hok]; rfl, hok⟩

end

-- ---------------------------------------------------------------------------
-- A request in two packets, and in one
-- ---------------------------------------------------------------------------

def firstHalf : Packet := ⟨ascii "GET /tms,3,", newDb 6⟩

def secondHalf : Packet := ⟨ascii "2,1 HTTP/1.1\r\n\r\n", newDb 7⟩

def whole : Packet := ⟨ascii "GET /tms,3,2,1 HTTP/1.1\r\n\r\n", newDb 6⟩

theorem split_aborts : Reachable plainServer (Server.init 3) oneConn ∧
    oneConn.Enabled (.readable 5 (.data firstHalf.data) [] firstHalf.db) ∧
    (∀ stack, oneConn.feed 5 stack [firstHalf, secondHalf] = .error .abort) ∧
    ¬ oneConn.Independent 5 firstHalf [secondHalf] := by
  have hp : parseRead firstHalf.data = .error .incomplete := by decide +kernel
  refine ⟨oneConn_reachable, ⟨⟨0, rfl⟩, rfl, ⟨by decide, by decide⟩, fun _ _ => ⟨by decide, rfl⟩⟩,
    fun stack => feed_abort rfl hp stack _, fun h => ?_⟩
  obtain ⟨s', hfeed, -⟩ := h fun _ => []
  rw [feed_abort rfl hp] at hfeed
  cases hfeed

theorem independent_whole : oneConn.Independent 5 whole [] :=
  (independent_iff (by decide) oneConn_reachable oneConn_request_enabled).mpr
    ⟨⟨ascii "GET", ascii "/tms,3,2,1", 4, 1, []⟩, 27, by decide +kernel, .inl rfl,
      .inr ⟨rfl, by decide⟩⟩

end Canvasback
