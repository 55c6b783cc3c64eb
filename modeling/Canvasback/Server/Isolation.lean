import Canvasback.Server.Sound

/-!
# Connections kept apart

`fmt_res_bin` acts on the descriptor number its client was read from, whatever
that number stands for by then. As long as the system gives no number out that
a waiting client still holds, it stands for the client's own connection or for
nothing.
-/

namespace Canvasback

open Runs Server

/-- What `fmt_res_bin` does is done to the connection its request came on and
the database session its result came from. -/
def Entry.Isolated (e : Entry) : Prop :=
  match e.actor with
  | .readCb _ => True
  | .fmtResBin origin pg => e.act.Within (some (.conn origin)) (some (.db pg))

def Server.Isolated (s : Server) : Prop := ∀ e ∈ s.log, e.Isolated

/-- No number is given out that a waiting client still holds. -/
def Server.KeepsNumbers (s : Server) : Event → Prop
  | .accept newfd => ¬ s.Waiting newfd
  | .readable _ _ _ db => db.Connects → ¬ s.Waiting db.sock
  | .reply _ _ => True

/-- A waiting client's number stands for its connection or for nothing, that of
its database for its session. -/
structure Server.Held (s : Server) : Prop extends s.Sound where
  isolated : s.Isolated
  fd : s.heap p = some (.client c) → s.files c.fd = none ∨ s.files c.fd = some (.conn c.origin)
  dbfd : s.heap p = some (.client c) → s.files c.dbfd = some (.db c.conn)
  inj : s.heap p = some (.client c) → s.heap p' = some (.client c') → c.conn = c'.conn → p = p'

section
variable {s s' : Server} {fd newfd : Fd} {p : Nat} {c : Client} {r : Read} {behind : List UInt8}
  {db : Libpq} {n : Longs} {log : List Entry} {rows : List Row} {scale : Scale}
  {junk : Nat → UInt8} {fuel id : Nat} {e : Event} {es : List Event} {listenSock : Fd}

-- ---------------------------------------------------------------------------
-- Traces
-- ---------------------------------------------------------------------------

theorem Server.Isolated.readCb {conn : Nat} (h : s.Isolated)
    (ht : Trace (.readCb conn) f d ws log) : ∀ e ∈ s.log ++ log, e.Isolated := by
  intro e he
  rcases List.mem_append.mp he with he | he
  · exact h e he
  · rw [Entry.Isolated, (ht.within e he).1]
    trivial

theorem Server.Isolated.fmtResBin {origin pg : Nat} (h : s.Isolated)
    (ht : Trace (.fmtResBin origin pg) f d ws log) (hf : f = none ∨ f = some (.conn origin))
    (hd : d = some (.db pg)) : ∀ e ∈ s.log ++ log, e.Isolated := by
  intro e he
  rcases List.mem_append.mp he with he | he
  · exact h e he
  · obtain ⟨hwho, hact⟩ := ht.within e he
    rw [Entry.Isolated, hwho]
    subst hd
    rcases hf with rfl | rfl
    · -- the connection is gone: nothing can be written or closed there
      cases ha : e.act with
      | write file bytes =>
        rw [ha] at hact
        cases hact
      | close file =>
        rw [ha] at hact
        exact .inr (by simpa [Act.Within] using hact)
      | del file =>
        rw [ha] at hact
        simp only [Act.Within] at hact ⊢
        rcases hact with h | h | h
        · exact .inl h
        · exact .inl h
        · exact .inr (.inr h)
    · exact hact

-- ---------------------------------------------------------------------------
-- Steps
-- ---------------------------------------------------------------------------

theorem Server.Held.init (hr : InRange listenSock) : (Server.init listenSock).Held where
  toSound := .init hr
  isolated := by simp [Server.Isolated, Server.init]
  fd h := by cases h
  dbfd h := by cases h
  inj h := by cases h

theorem Server.Held.accepted (h : s.Held) (hn : s.Unused newfd) (hk : ¬ s.Waiting newfd) :
    (s.accepted newfd).Held where
  toSound := h.toSound.accepted hn.1
  isolated := h.isolated
  fd {p c} hc := by
    rw [accepted_files, if_neg fun he => hk ⟨p, c, hc, he⟩]
    exact h.fd hc
  dbfd {p c} hc := by
    have hne : c.dbfd ≠ newfd := by
      intro he
      have := h.dbfd hc
      rw [he, hn.2] at this
      cases this
    rw [accepted_files, if_neg hne]
    exact h.dbfd hc
  inj := h.inj

theorem Server.Held.malloc (h : s.Held) : s.malloc.2.Held := by
  have hheap {p : Nat} {c : Client} (hc : s.malloc.2.heap p = some (.client c)) :
      s.heap p = some (.client c) := by
    rw [malloc_heap] at hc
    split at hc
    · cases hc
    · exact hc
  exact ⟨h.toSound.malloc, h.isolated, fun hc => h.fd (hheap hc), fun hc => h.dbfd (hheap hc),
    fun hc hc' => h.inj (hheap hc) (hheap hc')⟩

theorem Server.Held.hungUp (h : s.Held) (hf : s.files fd = some (.conn id))
    (hlog : ∀ e ∈ s.log ++ log, e.Isolated) : (s.hungUp fd log).Held where
  toSound := h.toSound.hungUp
  isolated := hlog
  fd {p c} hc := by
    rw [hungUp_files]
    split
    · exact .inl rfl
    · exact h.fd (heap_hungUp hc)
  dbfd {p c} hc := by
    have hdb := h.dbfd (heap_hungUp hc)
    have hne : c.dbfd ≠ fd := by
      intro he
      rw [he, hf] at hdb
      cases hdb
    rw [hungUp_files, if_neg hne, hdb]
  inj hc hc' := h.inj (heap_hungUp hc) (heap_hungUp hc')

theorem Server.Held.asked (h : s.Held) (hf : s.files fd = some (.conn id))
    (hn : s.Unused db.sock) (hk : ¬ s.Waiting db.sock)
    (hlog : ∀ e ∈ s.log ++ log, e.Isolated) : (s.asked fd n db log).Held := by
  have hne : fd ≠ db.sock := by
    intro he
    rw [he, hn.2] at hf
    cases hf
  have horigin : s.connAt fd = id := by simp [connAt, hf]
  have hold {p : Nat} {c : Client} (hc : s.heap p = some (.client c)) :
      c.fd ≠ db.sock ∧ c.dbfd ≠ db.sock ∧ c.conn ≠ s.nextPg := by
    refine ⟨fun he => hk ⟨p, c, hc, he⟩, fun he => ?_, (h.lt hc).ne⟩
    have := h.dbfd hc
    rw [he, hn.2] at this
    cases this
  refine ⟨h.toSound.asked hn.1, hlog, fun {p c} hc => ?_, fun {p c} hc => ?_,
    fun {p p' c c'} hc hc' he => ?_⟩
  · rw [asked_files]
    rcases heap_asked hc with ⟨-, hcell⟩ | ⟨-, hc⟩
    · cases hcell
      right
      rw [if_neg hne, hf, horigin]
    · rw [if_neg (hold hc).1]
      exact h.fd hc
  · rw [asked_files]
    rcases heap_asked hc with ⟨-, hcell⟩ | ⟨-, hc⟩
    · cases hcell
      exact if_pos rfl
    · rw [if_neg (hold hc).2.1]
      exact h.dbfd hc
  · rcases heap_asked hc with ⟨rfl, hcell⟩ | ⟨-, hc⟩ <;>
      rcases heap_asked hc' with ⟨rfl, hcell'⟩ | ⟨-, hc'⟩
    · rfl
    · cases hcell
      exact absurd he.symm (hold hc').2.2
    · cases hcell'
      exact absurd he (hold hc).2.2
    · exact h.inj hc hc' he

theorem Server.Held.answered (h : s.Held) (hc : s.heap p = some (.client c))
    (hlog : ∀ e ∈ s.log ++ log, e.Isolated) : (s.answered p c log).Held := by
  have hconn {q : Nat} {d : Client} (hd : (s.answered p c log).heap q = some (.client d)) :
      d.conn ≠ c.conn := fun he => (heap_answered hd).1 (h.inj (heap_answered hd).2 hc he)
  have hother {q : Nat} {d : Client} (hd : (s.answered p c log).heap q = some (.client d)) :
      d.dbfd ≠ c.dbfd ∧ d.dbfd ≠ c.fd := by
    have hdb := h.dbfd (heap_answered hd).2
    constructor
    · intro he
      rw [he, h.dbfd hc, Option.some.injEq, File.db.injEq] at hdb
      exact hconn hd hdb.symm
    · intro he
      rw [he] at hdb
      rcases h.fd hc with hf | hf
      · rw [hf] at hdb
        cases hdb
      · rw [hf] at hdb
        cases hdb
  refine ⟨h.toSound.answered, hlog, fun {q d} hd => ?_, fun {q d} hd => ?_,
    fun hd hd' => h.inj (heap_answered hd).2 (heap_answered hd').2⟩
  · rw [answered_files]
    split
    · exact .inl rfl
    · split
      · exact .inl rfl
      · exact h.fd (heap_answered hd).2
  · rw [answered_files, if_neg (hother hd).2, if_neg (hother hd).1]
    exact h.dbfd (heap_answered hd).2

theorem Server.Held.step (h : s.Held) (he : s.Enabled e) (hk : s.KeepsNumbers e)
    (hs : s.step scale junk fuel e = .ok s') : s'.Held := by
  cases e with
  | accept newfd =>
    rcases acceptCb_inv hs with ⟨-, rfl⟩ | ⟨hr, -, rfl⟩
    · exact h
    · rcases he.2 with rfl | hu
      · exact absurd hr (by decide)
      · exact h.accepted hu hk
  | readable fd r behind db =>
    obtain ⟨⟨id, hf⟩, -, -, hu⟩ := he
    simp only [Server.step] at hs
    rcases readCb_inv hs with hv | ⟨hv, hr, hfd⟩ | ⟨n, hv, hdb, hr, hfd⟩
    · rw [readCb_keep hv, Except.ok.injEq] at hs
      exact hs ▸ h.malloc
    · obtain ⟨log, hok, htrace⟩ := readCb_close db hv hr hfd
      rw [hok, Except.ok.injEq] at hs
      exact hs ▸ h.hungUp hf (h.isolated.readCb htrace)
    · obtain ⟨log, hok, htrace⟩ := readCb_query s fd hv hdb hr hfd
      rw [hok, Except.ok.injEq] at hs
      exact hs ▸ h.asked hf (hu hdb.1 hdb.2) (hk hdb) (h.isolated.readCb htrace)
  | reply fd rows =>
    obtain ⟨-, p, hp⟩ := he
    simp only [Server.step, hp, dbBinCb] at hs
    obtain ⟨c, writes, log, hc, -, rfl, htrace⟩ := h.toSound.fmtResBin_inv hs
    exact h.answered hc (h.isolated.fmtResBin htrace (h.fd hc) (h.dbfd hc))

/-- **Connection isolation.** In every run that gives out no number a waiting
client still holds, whatever `fmt_res_bin` writes, closes or deregisters is its
own client's. -/
theorem isolated_of_keepsNumbers (hr : Server.InRange listenSock)
    (hf : Feasible (server scale junk fuel) (.init listenSock) es)
    (hk : Meets (server scale junk fuel) KeepsNumbers (.init listenSock) es) :
    Always (server scale junk fuel) Server.Isolated (.init listenSock) es :=
  always_of_step (fun s (h : s.Held) => h.isolated) (fun _ _ _ h he hk hs => h.step he hk hs)
    (Server.Held.init hr) hf hk

end

-- ---------------------------------------------------------------------------
-- A run with a number given out again, and one without
-- ---------------------------------------------------------------------------

theorem not_isolated_of_sent {s : Server} {log : List Entry} {origin pg other : Nat}
    (ht : Trace (.fmtResBin origin pg) (some (.conn other)) d ws log) (hne : other ≠ origin)
    (hw : ws.flatten ≠ []) : ¬ ∀ e ∈ s.log ++ log, e.Isolated := by
  intro h
  have hsent := ht.sent (.conn other)
  rw [if_pos rfl] at hsent
  obtain ⟨b, hb⟩ := List.exists_mem_of_ne_nil _ hw
  rw [← hsent, List.mem_flatMap] at hb
  obtain ⟨e, he, hb⟩ := hb
  have hi := h e (List.mem_append_right _ he)
  rw [Entry.Isolated, (ht.within e he).1] at hi
  cases ha : e.act with
  | write file bytes =>
    rw [ha] at hi
    simp only [Entry.bytesTo, ha] at hb
    split at hb
    · rename_i hfile
      simp only [Act.Within, hfile, Option.some.injEq, File.conn.injEq] at hi
      exact hne hi.symm
    · simp at hb
  | close file => simp [Entry.bytesTo, ha] at hb
  | del file => simp [Entry.bytesTo, ha] at hb

/-- A request, its connection hung up, the number given out again, the result. -/
def strayRun : List Event :=
  [.accept 5, .readable 5 tileRequest [] (newDb 6), .readable 5 .eof [] (newDb 7), .accept 5,
    .reply 6 [oneLine]]

theorem isolation_fails : Feasible plainServer (.init 3) strayRun ∧
    ¬ Always plainServer Server.Isolated (.init 3) strayRun := by
  obtain ⟨log₂, h₂⟩ := oneConn_request
  obtain ⟨log₃, h₃, -⟩ := readCb_close (newDb 7) (show Read.eof.verdict [] = .close from rfl)
    (by decide) (show (waiting log₂).fds 5 ≠ none from Option.some_ne_none _)
  rw [← server_readable (fun _ _ _ => 0) (fun _ => 0) 1] at h₃
  -- the second connection gets the number the client still holds
  have h₄ : plainServer.step ((waiting log₂).hungUp 5 log₃) (.accept 5) =
      .ok (((waiting log₂).hungUp 5 log₃).accepted 5) :=
    (server_accept ..).trans (acceptCb_ok (by decide) rfl)
  have ha : (((waiting log₂).hungUp 5 log₃).accepted 5).Answerable firstClient :=
    ⟨⟨_, rfl, rfl⟩, ⟨by decide, Option.some_ne_none _⟩, ⟨by decide, Option.some_ne_none _⟩,
      by decide⟩
  obtain ⟨log₅, h₅, htrace⟩ := fmtResBin_ok
    (show (((waiting log₂).hungUp 5 log₃).accepted 5).heap 0 = some (.client firstClient) from rfl)
    oneLine_body ha
  rw [← server_reply _ _ _ _
    (show (((waiting log₂).hungUp 5 log₃).accepted 5).fds 6 = some (.dbBinCb 0) from rfl)] at h₅
  constructor
  · refine Meets.cons init_accept_enabled init_accept (Meets.cons ?_ h₂
      (Meets.cons ?_ h₃ (Meets.cons ?_ h₄ (Meets.cons ?_ h₅ trivial))))
    · exact oneConn_request_enabled
    · exact ⟨⟨0, rfl⟩, rfl, trivial, fun _ _ => ⟨by decide, rfl⟩⟩
    · exact ⟨⟨3, rfl, rfl⟩, .inr ⟨by decide, rfl⟩⟩
    · exact ⟨⟨0, rfl⟩, 0, rfl⟩
  · intro h
    have hlast := ((((h.tail init_accept).tail h₂).tail h₃).tail h₄).tail h₅
    exact not_isolated_of_sent htrace (show 1 ≠ 0 by decide) (by decide +kernel) hlast.head

theorem isolated_twoRequests : Always plainServer Server.Isolated (.init 3) twoRequests := by
  obtain ⟨l₂, l₄, l₅, l₇, h₁, h₂, h₃, h₄, h₅, h₆, h₇⟩ := twoRequests_steps _ _ _ oneLine_body
  obtain ⟨e₁, e₂, e₃, e₄, e₅, e₆, e₇⟩ := @twoRequests_enabled l₂ l₄ l₅
  have hnobody : ¬ (Server.init 3).Waiting 5 := by
    rintro ⟨p, c, hc, -⟩
    cases hc
  refine isolated_of_keepsNumbers (by decide) ?_ ?_
  · exact .cons e₁ h₁ (.cons e₂ h₂ (.cons e₃ h₃ (.cons e₄ h₄ (.cons e₅ h₅ (.cons e₆ h₆
      (.cons e₇ h₇ trivial))))))
  · refine .cons hnobody h₁ (.cons (fun _ => oneConn_nobody 6) h₂ (.cons (fun h => ?_) h₃
      (.cons (fun _ h => ?_) h₄ (.cons trivial h₅ (.cons (fun h => ?_) h₆
        (.cons trivial h₇ trivial))))))
    · exact absurd (@waiting_first l₂ _ h) (by decide)
    · exact absurd (@waiting_first l₂ _ h) (by decide)
    · exact absurd (waiting_second h) (by decide)

end Canvasback
