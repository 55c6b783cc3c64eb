import Canvasback.Server.Callbacks

/-!
# What holds of every state

Whatever the order of events, what is registered is open and of the kind its
callback is for, and addresses and sessions are numbered in the order of their
coming.
-/

namespace Canvasback

open Runs Server

/-- What a callback is registered for. -/
def Callback.Handles : Callback → File → Prop
  | .acceptCb, .listen => True
  | .readCb, .conn _ => True
  | .dbBinCb _, .db _ => True
  | _, _ => False

structure Server.Sound (s : Server) : Prop where
  handles : s.fds d = some callback → ∃ file, s.files d = some file ∧ callback.Handles file
  range : s.fds d ≠ none → InRange d
  sock : s.heap p = some (.client c) → s.pgs c.conn = some pg → pg.sock = c.dbfd
  lt : s.heap p = some (.client c) → c.conn < s.nextPg
  ptr : s.heap p ≠ none → p < s.nextPtr
  pgs : s.pgs q ≠ none → q < s.nextPg

/-- Nothing is changed for other connections: their descriptors, clients and
sessions are as before, and nothing was sent to them. -/
structure Server.OthersKept (s s' : Server) (fd : Fd) : Prop where
  files : d ≠ fd → s.files d ≠ none → s'.files d = s.files d
  fds : d ≠ fd → s.files d ≠ none → s'.fds d = s.fds d
  heap : s.heap p ≠ none → s'.heap p = s.heap p
  pgs : s.pgs q ≠ none → s'.pgs q = s.pgs q
  sent : s.files fd ≠ some file → s'.sent file = s.sent file

/-- What `t` has of a client is what `s` has. -/
structure Server.Keeps (s t : Server) (p : Nat) (c : Client) : Prop where
  heap : t.heap p = s.heap p
  pg : t.pgs c.conn = s.pgs c.conn
  conn : t.files c.fd = s.files c.fd ∧ t.fds c.fd = s.fds c.fd
  db : t.files c.dbfd = s.files c.dbfd ∧ t.fds c.dbfd = s.fds c.dbfd

/-- The client a query is asked for. -/
abbrev Server.newClient (s : Server) (fd : Fd) (n : Longs) (db : Libpq) : Client :=
  ⟨fd, tms2bbox n.tile, n.tile, db.sock, s.nextPg, s.connAt fd⟩

section
variable {s s' t : Server} {fd newfd d : Fd} {p : Nat} {c : Client} {r : Read}
  {behind : List UInt8} {db : Libpq} {n : Longs} {log : List Entry} {rows : List Row}
  {scale : Scale} {junk : Nat → UInt8} {fuel id : Nat} {e : Event} {listenSock : Fd}

/-- No registration outlives its descriptor. -/
theorem Server.Sound.unregistered (h : s.Sound) (hd : s.files d = none) : s.fds d = none := by
  by_contra hf
  obtain ⟨callback, hcb⟩ := Option.ne_none_iff_exists'.mp hf
  obtain ⟨file, hfile, -⟩ := h.handles hcb
  rw [hd] at hfile
  cases hfile

theorem Server.Sound.init (hr : InRange listenSock) : (Server.init listenSock).Sound where
  handles {d callback} h := by
    simp only [Server.init, Function.update_apply] at h ⊢
    split at h
    · rename_i hd
      cases h
      exact ⟨.listen, by rw [if_pos hd], trivial⟩
    · cases h
  range {d} h := by
    simp only [Server.init, Function.update_apply] at h
    split at h
    · rename_i hd
      exact hd ▸ hr
    · exact absurd rfl h
  sock h := by cases h
  lt h := by cases h
  ptr h := absurd rfl h
  pgs h := absurd rfl h

theorem Server.Sound.accepted (h : s.Sound) (hr : InRange newfd) : (s.accepted newfd).Sound where
  handles {d callback} hd := by
    rw [accepted_fds] at hd
    rw [accepted_files]
    split at hd
    · rename_i he
      cases hd
      exact ⟨_, if_pos he, trivial⟩
    · rename_i he
      rw [if_neg he]
      exact h.handles hd
  range {d} hd := by
    rw [accepted_fds] at hd
    split at hd
    · rename_i he
      exact he ▸ hr
    · exact h.range hd
  sock := h.sock
  lt := h.lt
  ptr := h.ptr
  pgs := h.pgs

theorem malloc_heap (p : Nat) :
    s.malloc.2.heap p = if p = s.nextPtr then some .fresh else s.heap p :=
  Function.update_apply ..

theorem Server.Sound.malloc (h : s.Sound) : s.malloc.2.Sound := by
  have hheap {p : Nat} {c : Client} (hc : s.malloc.2.heap p = some (.client c)) :
      s.heap p = some (.client c) := by
    rw [malloc_heap] at hc
    split at hc
    · cases hc
    · exact hc
  refine ⟨h.handles, h.range, fun hc => h.sock (hheap hc), fun hc => h.lt (hheap hc),
    fun {p} hp => ?_, h.pgs⟩
  rw [malloc_heap] at hp
  simp only [Server.malloc]
  split at hp
  · omega
  · have := h.ptr hp
    omega

theorem heap_hungUp {cell : Cell} (hc : (s.hungUp fd log).heap p = some cell) :
    s.heap p = some cell := by
  rw [hungUp_heap] at hc
  split at hc
  · cases hc
  · exact hc

theorem Server.Sound.hungUp (h : s.Sound) : (s.hungUp fd log).Sound where
  handles {d callback} hd := by
    rw [hungUp_fds] at hd
    rw [hungUp_files]
    split at hd
    · cases hd
    · rename_i he
      rw [if_neg he]
      exact h.handles hd
  range {d} hd := by
    rw [hungUp_fds] at hd
    split at hd
    · exact absurd rfl hd
    · exact h.range hd
  sock hc := h.sock (heap_hungUp hc)
  lt hc := h.lt (heap_hungUp hc)
  ptr {p} hp := by
    obtain ⟨cell, hcell⟩ := Option.ne_none_iff_exists'.mp hp
    have := h.ptr (show s.heap p ≠ none by simp [heap_hungUp hcell])
    simp only [Server.hungUp]
    omega
  pgs := h.pgs

/-- A cell after a query is sent: the new client's, or one that was there. -/
theorem heap_asked {cell : Cell} (hc : (s.asked fd n db log).heap p = some cell) :
    (p = s.nextPtr ∧
      cell = .client ⟨fd, tms2bbox n.tile, n.tile, db.sock, s.nextPg, s.connAt fd⟩) ∨
    (p ≠ s.nextPtr ∧ s.heap p = some cell) := by
  rw [asked_heap] at hc
  split at hc
  · rename_i hp
    exact .inl ⟨hp, (Option.some.inj hc).symm⟩
  · rename_i hp
    exact .inr ⟨hp, hc⟩

theorem Server.Sound.asked (h : s.Sound) (hr : InRange db.sock) :
    (s.asked fd n db log).Sound where
  handles {d callback} hd := by
    rw [asked_fds] at hd
    rw [asked_files]
    split at hd
    · rename_i he
      cases hd
      exact ⟨_, if_pos he, trivial⟩
    · rename_i he
      rw [if_neg he]
      exact h.handles hd
  range {d} hd := by
    rw [asked_fds] at hd
    split at hd
    · rename_i he
      exact he ▸ hr
    · exact h.range hd
  sock {p c pg} hc hpg := by
    rw [asked_pgs] at hpg
    rcases heap_asked hc with ⟨-, hcell⟩ | ⟨-, hc⟩
    · cases hcell
      rw [if_pos rfl, Option.some.injEq] at hpg
      rw [← hpg]
    · have := h.lt hc
      rw [if_neg (by omega)] at hpg
      exact h.sock hc hpg
  lt {p c} hc := by
    simp only [Server.asked]
    rcases heap_asked hc with ⟨-, hcell⟩ | ⟨-, hc⟩
    · cases hcell
      exact Nat.lt_succ_self _
    · exact Nat.lt_succ_of_lt (h.lt hc)
  ptr {p} hp := by
    rw [asked_heap] at hp
    simp only [Server.asked]
    split at hp
    · omega
    · exact Nat.lt_succ_of_lt (h.ptr hp)
  pgs {q} hq := by
    rw [asked_pgs] at hq
    simp only [Server.asked]
    split at hq
    · omega
    · exact Nat.lt_succ_of_lt (h.pgs hq)

theorem heap_answered {q : Nat} {cell : Cell} (hq : (s.answered p c log).heap q = some cell) :
    q ≠ p ∧ s.heap q = some cell := by
  rw [answered_heap] at hq
  split at hq
  · cases hq
  · rename_i hne
    exact ⟨hne, hq⟩

theorem Server.Sound.answered (h : s.Sound) : (s.answered p c log).Sound where
  handles {d callback} hd := by
    rw [answered_fds] at hd
    rw [answered_files]
    split at hd
    · cases hd
    · rename_i h₁
      split at hd
      · cases hd
      · rename_i h₂
        rw [if_neg h₂, if_neg h₁]
        exact h.handles hd
  range {d} hd := by
    rw [answered_fds] at hd
    split at hd
    · exact absurd rfl hd
    · split at hd
      · exact absurd rfl hd
      · exact h.range hd
  sock {q d pg} hd hpg := by
    rw [answered_pgs] at hpg
    split at hpg
    · cases hpg
    · exact h.sock (heap_answered hd).2 hpg
  lt hd := h.lt (heap_answered hd).2
  ptr {q} hq := by
    rw [answered_heap] at hq
    split at hq
    · exact absurd rfl hq
    · exact h.ptr hq
  pgs {q} hq := by
    rw [answered_pgs] at hq
    split at hq
    · exact absurd rfl hq
    · exact h.pgs hq

/-- When `fmt_res_bin` comes back from such a state. -/
theorem Server.Sound.fmtResBin_inv (h : s.Sound)
    (hs : s.fmtResBin scale junk fuel p rows = .ok s') :
    ∃ c writes log, s.heap p = some (.client c) ∧ body scale junk fuel c.tile rows = .ok writes ∧
      s' = s.answered p c log ∧
      Trace (.fmtResBin c.origin c.conn) (s.files c.fd) (s.files c.dbfd) writes log := by
  obtain ⟨c, writes, hc, hb, ⟨pg, hpg⟩, hfd, hdb, hne⟩ := Server.fmtResBin_inv hs
  obtain ⟨log, hok, htrace⟩ := fmtResBin_ok hc hb ⟨⟨pg, hpg, h.sock hc hpg⟩, hfd, hdb, hne⟩
  rw [hok, Except.ok.injEq] at hs
  exact ⟨c, writes, log, hc, hb, hs.symm, htrace⟩

theorem Server.Sound.step (h : s.Sound) (he : s.Enabled e)
    (hs : s.step scale junk fuel e = .ok s') : s'.Sound := by
  cases e with
  | accept newfd =>
    rcases acceptCb_inv hs with ⟨-, rfl⟩ | ⟨hr, -, rfl⟩
    · exact h
    · exact h.accepted hr
  | readable fd r behind db =>
    simp only [Server.step] at hs
    rcases readCb_inv hs with hv | ⟨hv, hr, hfd⟩ | ⟨n, hv, hdb, hr, hfd⟩
    · rw [readCb_keep hv, Except.ok.injEq] at hs
      exact hs ▸ h.malloc
    · obtain ⟨log, hok, -⟩ := readCb_close db hv hr hfd
      rw [hok, Except.ok.injEq] at hs
      exact hs ▸ h.hungUp
    · obtain ⟨log, hok, -⟩ := readCb_query s fd hv hdb hr hfd
      rw [hok, Except.ok.injEq] at hs
      exact hs ▸ h.asked hr
  | reply fd rows =>
    obtain ⟨-, p, hp⟩ := he
    simp only [Server.step, hp, dbBinCb] at hs
    obtain ⟨c, writes, log, -, -, rfl, -⟩ := h.fmtResBin_inv hs
    exact h.answered

theorem Server.Answerable.keeps (h : s.Answerable c) (hk : s.Keeps t p c) : t.Answerable c := by
  refine ⟨?_, ?_, ?_, h.ne⟩
  · rw [hk.pg]
    exact h.pg
  · rw [hk.conn.2]
    exact h.fd
  · rw [hk.db.2]
    exact h.dbfd

/-- The answer to a query, whatever was done for others since it was asked. -/
theorem asked_reply (h : s.Sound) (hf : s.fds fd = some .readCb) (hn : s.Unused db.sock)
    (hk : (s.asked fd n db log).Keeps t s.nextPtr (s.newClient fd n db))
    (hb : body scale junk fuel n.tile rows = .ok writes) : ∃ log',
    t.step scale junk fuel (.reply db.sock rows) =
      .ok (t.answered s.nextPtr (s.newClient fd n db) log') ∧
    Trace (.fmtResBin (s.connAt fd) s.nextPg) (t.files fd) (t.files db.sock) writes log' := by
  have hne : fd ≠ db.sock := by
    rintro rfl
    rw [h.unregistered hn.2] at hf
    cases hf
  have hfds : (s.asked fd n db log).fds db.sock = some (.dbBinCb s.nextPtr) := by simp
  have ha : (s.asked fd n db log).Answerable (s.newClient fd n db) := by
    refine ⟨⟨_, by rw [asked_pgs, if_pos rfl], rfl⟩, ⟨h.range (by simp [hf]), ?_⟩,
      ⟨hn.1, by simp⟩, hne.symm⟩
    rw [asked_fds, if_neg hne, hf]
    exact Option.some_ne_none _
  obtain ⟨log', hok, htrace⟩ := fmtResBin_ok (hk.heap.trans (by simp)) hb (ha.keeps hk)
  refine ⟨log', ?_, htrace⟩
  simp only [Server.step, hk.db.2, hfds, dbBinCb]
  exact hok

theorem sound_of_reachable (hr : Server.InRange listenSock)
    (h : Reachable (server scale junk fuel) (Server.init listenSock) s) : s.Sound :=
  h.invariant (Server.Sound.init hr) fun _ _ _ h he hs => h.step he hs

end

-- Who waits while two requests are in flight.

theorem oneConn_nobody (fd : Fd) : ¬ oneConn.Waiting fd := by
  rintro ⟨p, c, hc, -⟩
  cases hc

theorem waiting_first {l₂ : List Entry} {fd : Fd} (h : (waiting l₂).Waiting fd) : fd = 5 := by
  obtain ⟨p, c, hc, rfl⟩ := h
  have hc : (oneConn.asked 5 ⟨3, 2, 1⟩ (newDb 6) l₂).heap p = some (.client c) := hc
  rcases heap_asked hc with ⟨-, hcell⟩ | ⟨-, hc⟩
  · cases hcell
    rfl
  · cases hc

/-- The first client is gone when its number is given out again. -/
theorem waiting_second {l₂ l₄ l₅ : List Entry} {fd : Fd}
    (h : (firstAnswered l₂ l₄ l₅).Waiting fd) : fd = 7 := by
  obtain ⟨p, c, hc, rfl⟩ := h
  obtain ⟨hp, hc⟩ := heap_answered hc
  have hc : (((waiting l₂).accepted 7).asked 7 ⟨3, 2, 1⟩ (newDb 8) l₄).heap p =
      some (.client c) := hc
  rcases heap_asked hc with ⟨-, hcell⟩ | ⟨-, hc⟩
  · cases hcell
    rfl
  · have hc : (oneConn.asked 5 ⟨3, 2, 1⟩ (newDb 6) l₂).heap p = some (.client c) := hc
    rcases heap_asked hc with ⟨rfl, -⟩ | ⟨-, hc⟩
    · exact absurd rfl hp
    · cases hc

end Canvasback
