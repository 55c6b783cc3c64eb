import Canvasback.Server.Process
import Canvasback.Server.Response

/-!
# The three tables

Open descriptors, picoev's registrations and the heap of `client_t`s agree as
long as nothing but the result happens on a connection that waits for one.
`consistent_iff` says so of whole runs of the process, in both directions.
-/

namespace Canvasback

open Runs Server

/-- The tables agree: a `client_t` for each registered database socket and the
other way round, on an open connection of its own that is read from. -/
structure Server.Consistent (s : Server) : Prop where
  live : s.heap p = some cell → ∃ c, cell = .client c ∧ s.fds c.dbfd = some (.dbBinCb p)
  owner : s.fds d = some (.dbBinCb p) → ∃ c, s.heap p = some (.client c) ∧ c.dbfd = d
  conn : s.heap p = some (.client c) →
    (∃ id, s.files c.fd = some (.conn id)) ∧ s.fds c.fd = some .readCb
  alone : s.heap p = some (.client c) → s.heap p' = some (.client c') → c.fd = c'.fd → p = p'

/-- What carries `Consistent` from step to step. -/
structure Server.Inv (s : Server) : Prop extends s.Consistent, s.Sound where
  pg : s.heap p = some (.client c) → ∃ pg, s.pgs c.conn = some pg
  inj : s.heap p = some (.client c) → s.heap p' = some (.client c') → c.conn = c'.conn → p = p'

/-- Connections to the database come about, and requests are whole and well
formed. -/
def Event.Served : Event → Prop
  | .readable _ r behind db => r.verdict behind ≠ .abort ∧ db.Connects
  | _ => True

/-- The rows of a result are geometries the cursor gets through. -/
def Event.Walkable : Event → Prop
  | .reply _ rows => ∃ trees : List TreeRow, rows = trees.map TreeRow.row ∧ ∀ t ∈ trees, t.Walkable
  | _ => True

/-- How many bytes of geometry come with a result. -/
def Event.bytes : Event → Nat
  | .reply _ rows => (rows.map fun row => row.value.length).sum
  | _ => 0

/-- `select` has a bit for each number given out; no read is cut short, and
nothing is read from a connection with a query in flight; a client is there
still when it is written to; and results are rows the cursor gets through,
with room for their records. -/
def Server.Orderly (s : Server) (m : Moment) : Prop :=
  match m.event with
  | .accept newfd => InSet newfd
  | .readable fd r behind db => (r ≠ .again ∧ ¬ s.Waiting fd) ∧
      (r.head ≠ [] → m.gone = false) ∧ ∀ n, r.verdict behind = .query n → InSet db.sock
  | .reply _ rows => m.gone = false ∧
      ∃ trees, rows = trees.map TreeRow.row ∧ (∀ t ∈ trees, t.Walkable) ∧ Roomy trees

/-- The process on such connections and requests. -/
def servedProcess (scale : Scale) (junk : Nat → UInt8) (fuel : Nat) :
    System Server Moment Stop where
  enabled s m := s.Enabled m.event ∧ m.event.Served
  step := Server.happens scale junk fuel

section
variable {s s' : Server} {fd newfd d : Fd} {p : Nat} {c : Client} {r : Read} {behind : List UInt8}
  {db : Libpq} {n : Longs} {log : List Entry} {rows : List Row} {scale : Scale}
  {junk : Nat → UInt8} {fuel id : Nat} {m : Moment} {listenSock : Fd}

/-- Where a client stands in the tables. -/
theorem Server.Inv.client (h : s.Inv) (hc : s.heap p = some (.client c)) :
    s.fds c.fd = some .readCb ∧ s.fds c.dbfd = some (.dbBinCb p) ∧ c.fd ≠ c.dbfd := by
  obtain ⟨c', hc', hdb⟩ := h.live hc
  cases hc'
  have hfd := (h.conn hc).2
  refine ⟨hfd, hdb, fun he => ?_⟩
  rw [he, hdb] at hfd
  cases hfd

theorem Server.Inv.answerable (h : s.Inv) (hc : s.heap p = some (.client c)) :
    s.Answerable c := by
  obtain ⟨hfd, hdb, hne⟩ := h.client hc
  obtain ⟨pg, hpg⟩ := h.pg hc
  have hfd : s.fds c.fd ≠ none := by simp [hfd]
  have hdb : s.fds c.dbfd ≠ none := by simp [hdb]
  exact ⟨⟨pg, hpg, h.sock hc hpg⟩, ⟨h.range hfd, hfd⟩, ⟨h.range hdb, hdb⟩, hne.symm⟩

theorem Read.verdict_keep (h : r.verdict behind = .keep) : r = .again := by
  cases r with
  | again => rfl
  | eof | error => cases h
  | data buf =>
    simp only [Read.verdict] at h
    split at h
    · cases h
    · split at h <;> cases h

theorem Server.Inv.init (hr : InRange listenSock) : (Server.init listenSock).Inv where
  live h := by cases h
  owner {d p} h := by
    simp only [Server.init, Function.update_apply] at h
    split at h <;> cases h
  conn h := by cases h
  alone h := by cases h
  toSound := .init hr
  pg h := by cases h
  inj h := by cases h

theorem Server.Inv.accepted (h : s.Inv) (hn : s.Unused newfd) : (s.accepted newfd).Inv := by
  have hfree := h.unregistered hn.2
  have hne {p : Nat} {c : Client} (hc : s.heap p = some (.client c)) :
      c.fd ≠ newfd ∧ c.dbfd ≠ newfd := by
    obtain ⟨hfd, hdb, -⟩ := h.client hc
    refine ⟨fun he => ?_, fun he => ?_⟩
    · rw [he, hfree] at hfd
      cases hfd
    · rw [he, hfree] at hdb
      cases hdb
  refine { toSound := h.toSound.accepted hn.1, live := ?_, owner := ?_, conn := ?_,
           alone := h.alone, pg := h.pg, inj := h.inj }
  · intro p cell hcell
    obtain ⟨c, rfl, hdb⟩ := h.live hcell
    exact ⟨c, rfl, by rw [accepted_fds, if_neg (hne hcell).2, hdb]⟩
  · intro d p hd
    rw [accepted_fds] at hd
    split at hd
    · cases hd
    · exact h.owner hd
  · intro p c hc
    obtain ⟨hid, hfd⟩ := h.conn hc
    rw [accepted_files, accepted_fds, if_neg (hne hc).1, if_neg (hne hc).1]
    exact ⟨hid, hfd⟩

theorem Server.Inv.hungUp (h : s.Inv) (hf : s.fds fd = some .readCb) (hw : ¬ s.Waiting fd) :
    (s.hungUp fd log).Inv := by
  have hne {p : Nat} {c : Client} (hc : s.heap p = some (.client c)) :
      c.fd ≠ fd ∧ c.dbfd ≠ fd := by
    refine ⟨fun he => hw ⟨p, c, hc, he⟩, fun he => ?_⟩
    have hdb := (h.client hc).2.1
    rw [he, hf] at hdb
    cases hdb
  refine { toSound := h.toSound.hungUp, live := ?_, owner := ?_, conn := ?_, alone := ?_,
           pg := ?_, inj := ?_ }
  · intro p cell hcell
    obtain ⟨c, rfl, hdb⟩ := h.live (heap_hungUp hcell)
    exact ⟨c, rfl, by rw [hungUp_fds, if_neg (hne (heap_hungUp hcell)).2, hdb]⟩
  · intro d p hd
    rw [hungUp_fds] at hd
    split at hd
    · cases hd
    · obtain ⟨c, hc, hcd⟩ := h.owner hd
      refine ⟨c, ?_, hcd⟩
      have := h.ptr (show s.heap p ≠ none by simp [hc])
      rw [hungUp_heap, if_neg (by omega), hc]
  · intro p c hc
    have hcfd := (hne (heap_hungUp hc)).1
    rw [hungUp_files, hungUp_fds, if_neg hcfd, if_neg hcfd]
    exact h.conn (heap_hungUp hc)
  · exact fun hc hc' => h.alone (heap_hungUp hc) (heap_hungUp hc')
  · exact fun hc => h.pg (heap_hungUp hc)
  · exact fun hc hc' => h.inj (heap_hungUp hc) (heap_hungUp hc')

theorem Server.Inv.asked (h : s.Inv) (hconn : ∃ id, s.files fd = some (.conn id))
    (hf : s.fds fd = some .readCb) (hw : ¬ s.Waiting fd) (hn : s.Unused db.sock) :
    (s.asked fd n db log).Inv := by
  have hfree := h.unregistered hn.2
  have hfdne : fd ≠ db.sock := by
    intro he
    rw [he, hfree] at hf
    cases hf
  have hold {p : Nat} {c : Client} (hc : s.heap p = some (.client c)) :
      c.fd ≠ db.sock ∧ c.dbfd ≠ db.sock ∧ c.fd ≠ fd ∧ c.conn ≠ s.nextPg := by
    obtain ⟨hfd, hdb, -⟩ := h.client hc
    refine ⟨fun he => ?_, fun he => ?_, fun he => hw ⟨p, c, hc, he⟩, (h.lt hc).ne⟩
    · rw [he, hfree] at hfd
      cases hfd
    · rw [he, hfree] at hdb
      cases hdb
  refine { toSound := h.toSound.asked hn.1, live := ?_, owner := ?_, conn := ?_, alone := ?_,
           pg := ?_, inj := ?_ }
  · intro p cell hcell
    rcases heap_asked hcell with ⟨rfl, rfl⟩ | ⟨hp, hcell⟩
    · exact ⟨_, rfl, by rw [asked_fds, if_pos rfl]⟩
    · obtain ⟨c, rfl, hdb⟩ := h.live hcell
      exact ⟨c, rfl, by rw [asked_fds, if_neg (hold hcell).2.1, hdb]⟩
  · intro d p hd
    rw [asked_fds] at hd
    split at hd
    · rename_i he
      cases hd
      exact ⟨_, by rw [asked_heap, if_pos rfl], he.symm⟩
    · obtain ⟨c, hc, hcd⟩ := h.owner hd
      have hp := h.ptr (show s.heap p ≠ none by simp [hc])
      exact ⟨c, by rw [asked_heap, if_neg (by omega), hc], hcd⟩
  · intro p c hc
    rw [asked_files, asked_fds]
    rcases heap_asked hc with ⟨-, hcell⟩ | ⟨-, hc⟩
    · cases hcell
      rw [if_neg hfdne, if_neg hfdne]
      exact ⟨hconn, hf⟩
    · rw [if_neg (hold hc).1, if_neg (hold hc).1]
      exact h.conn hc
  · intro p p' c c' hc hc' he
    rcases heap_asked hc with ⟨rfl, hcell⟩ | ⟨-, hc⟩ <;>
      rcases heap_asked hc' with ⟨rfl, hcell'⟩ | ⟨-, hc'⟩
    · rfl
    · cases hcell
      exact absurd he.symm (hold hc').2.2.1
    · cases hcell'
      exact absurd he (hold hc).2.2.1
    · exact h.alone hc hc' he
  · intro p c hc
    rw [asked_pgs]
    rcases heap_asked hc with ⟨-, hcell⟩ | ⟨-, hc⟩
    · cases hcell
      exact ⟨_, if_pos rfl⟩
    · rw [if_neg (hold hc).2.2.2]
      exact h.pg hc
  · intro p p' c c' hc hc' he
    rcases heap_asked hc with ⟨rfl, hcell⟩ | ⟨-, hc⟩ <;>
      rcases heap_asked hc' with ⟨rfl, hcell'⟩ | ⟨-, hc'⟩
    · rfl
    · cases hcell
      exact absurd he.symm (hold hc').2.2.2
    · cases hcell'
      exact absurd he (hold hc).2.2.2
    · exact h.inj hc hc' he

theorem Server.Inv.answered (h : s.Inv) (hc : s.heap p = some (.client c)) :
    (s.answered p c log).Inv := by
  obtain ⟨hfd, hdb, -⟩ := h.client hc
  -- no other client has anything in common with the one answered
  have hother {q : Nat} {d : Client} (hne : q ≠ p) (hq : s.heap q = some (.client d)) :
      (d.fd ≠ c.fd ∧ d.fd ≠ c.dbfd) ∧ (d.dbfd ≠ c.fd ∧ d.dbfd ≠ c.dbfd) ∧ d.conn ≠ c.conn := by
    obtain ⟨hfd', hdb', -⟩ := h.client hq
    refine ⟨⟨fun he => hne (h.alone hq hc he), fun he => ?_⟩, ⟨fun he => ?_, fun he => ?_⟩,
      fun he => hne (h.inj hq hc he)⟩
    · rw [he, hdb] at hfd'
      cases hfd'
    · rw [he, hfd] at hdb'
      cases hdb'
    · rw [he, hdb] at hdb'
      cases hdb'
      exact hne rfl
  refine { toSound := h.toSound.answered, live := ?_, owner := ?_, conn := ?_, alone := ?_,
           pg := ?_, inj := ?_ }
  · intro q cell hcell
    obtain ⟨hne, hcell⟩ := heap_answered hcell
    obtain ⟨d, rfl, hd⟩ := h.live hcell
    have hdd := (hother hne hcell).2.1
    exact ⟨d, rfl, by rw [answered_fds, if_neg hdd.2, if_neg hdd.1, hd]⟩
  · intro d q hd
    rw [answered_fds] at hd
    split at hd
    · cases hd
    · rename_i hdne
      split at hd
      · cases hd
      · obtain ⟨c', hc', hcd⟩ := h.owner hd
        refine ⟨c', ?_, hcd⟩
        have hq : q ≠ p := by
          rintro rfl
          rw [hc] at hc'
          cases hc'
          exact hdne hcd.symm
        rw [answered_heap, if_neg hq, hc']
  · intro q d hd
    obtain ⟨hne, hd⟩ := heap_answered hd
    obtain ⟨h₁, h₂⟩ := (hother hne hd).1
    rw [answered_files, answered_fds, if_neg h₁, if_neg h₁, if_neg h₂, if_neg h₂]
    exact h.conn hd
  · exact fun hd hd' => h.alone (heap_answered hd).2 (heap_answered hd').2
  · intro q d hd
    obtain ⟨hne, hd⟩ := heap_answered hd
    rw [answered_pgs, if_neg (hother hne hd).2.2]
    exact h.pg hd
  · exact fun hd hd' => h.inj (heap_answered hd).2 (heap_answered hd').2

-- ---------------------------------------------------------------------------
-- Steps
-- ---------------------------------------------------------------------------

theorem bytes_map (trees : List TreeRow) :
    (Event.reply fd (trees.map TreeRow.row)).bytes = totalLength trees := by
  rw [Event.bytes, List.map_map, totalLength]
  rfl

/-- What the process does at an orderly moment, and that it does it. -/
theorem Server.Inv.happens (h : s.Inv) (hm : m.event.bytes ≤ fuel)
    (he : s.Enabled m.event ∧ m.event.Served) (ho : s.Orderly m) :
    ∃ s', s.happens scale junk fuel m = .ok s' ∧ s'.Inv := by
  obtain ⟨e, gone⟩ := m
  obtain ⟨he, hsv⟩ := he
  cases e with
  | accept newfd =>
    have hin : InSet newfd := ho
    rcases he.2 with rfl | hn
    · refine ⟨s, happens_ok rfl (fun _ => ?_) fun hb => hb.2 hin, h⟩
      exact wrote_eq (List.append_nil _).symm
    · refine ⟨_, happens_ok (acceptCb_ok hn.1 (h.unregistered hn.2)) (fun _ => ?_)
        (fun hb => hb.2 hin), h.accepted hn⟩
      exact wrote_eq (List.append_nil _).symm
  | readable fd r behind db =>
    obtain ⟨⟨id, hconn⟩, hf, -, hu⟩ := he
    obtain ⟨hv, hdb⟩ := hsv
    obtain ⟨⟨hr, hw⟩, hgone, hin⟩ := ho
    have hn := hu hdb.1 hdb.2
    have hfree := h.unregistered hn.2
    -- a gone client was not written to
    have hquiet {s' : Server} {log : List Entry} {who : Actor}
        (ht : Trace who (s.files fd) none r.head log) (hl : s'.log = s.log ++ log) :
        gone = true → s.wrote s' = false := by
      intro hg
      have hhead : r.head = [] := by
        by_contra hne
        have hstill : gone = false := hgone hne
        rw [hg] at hstill
        cases hstill
      rw [wrote_trace ht hl, hhead]
      exact Bool.and_false _
    cases hverdict : r.verdict behind with
    | keep => exact absurd (Read.verdict_keep hverdict) hr
    | abort => exact absurd hverdict hv
    | close =>
      have hreg : s.fds fd ≠ none := by simp [hf]
      obtain ⟨log, hok, htrace⟩ := readCb_close db hverdict (h.range hreg) hreg
      refine ⟨_, happens_ok hok (hquiet htrace rfl) fun hb => hb.1 ?_, h.hungUp hf hw⟩
      rw [hungUp_fds, hfree, ite_self]
    | query n =>
      obtain ⟨log, hok, htrace⟩ := readCb_query s fd hverdict hdb hn.1 hfree
      exact ⟨_, happens_ok hok (hquiet htrace rfl) fun hb => hb.2 (hin n hverdict),
        h.asked ⟨id, hconn⟩ hf hw hn⟩
  | reply fd rows =>
    obtain ⟨-, p, hp⟩ := he
    obtain ⟨hgone, trees, rfl, hw, hroom⟩ := ho
    obtain ⟨c, hc, rfl⟩ := h.owner hp
    rw [bytes_map] at hm
    obtain ⟨writes, hb⟩ := (body_ok_iff scale junk c.tile hw hm).mpr hroom
    obtain ⟨log, hok, -⟩ := fmtResBin_ok hc hb (h.answerable hc)
    refine ⟨s.answered p c log, happens_ok ?_ (fun hg => ?_) id, h.answered hc⟩
    · simp only [Server.step, hp, dbBinCb]
      exact hok
    · have hstill : gone = false := hgone
      rw [hstill] at hg
      cases hg

/-- Anything else ends the process or leaves a state in which the tables
disagree. -/
theorem Server.Inv.orderly (h : s.Inv) (hm : m.event.bytes ≤ fuel ∧ m.event.Walkable)
    (he : s.Enabled m.event ∧ m.event.Served) (hs : s.happens scale junk fuel m = .ok s')
    (hgood : s'.Consistent) : s.Orderly m := by
  obtain ⟨e, gone⟩ := m
  obtain ⟨hm, hwalk⟩ := hm
  obtain ⟨he, hsv⟩ := he
  obtain ⟨hs, hquiet, hin⟩ := happens_inv hs
  -- who is written to was there
  have hstill {log : List Entry} {who : Actor} {file : File} {ws : List (List UInt8)}
      {d : Option File} (ht : Trace who (some file) d ws log) (hl : s'.log = s.log ++ log)
      (hne : ws ≠ []) : gone = false := by
    have hw := wrote_trace ht hl
    cases hg : gone with
    | false => rfl
    | true =>
      rw [hquiet hg] at hw
      exact absurd (by simpa using hw) hne
  cases e with
  | accept newfd =>
    rcases acceptCb_inv hs with ⟨rfl, -⟩ | ⟨-, -, rfl⟩
    · show InSet (-1)
      decide
    · by_contra hout
      exact hin ⟨by simp, hout⟩
  | readable fd r behind db =>
    obtain ⟨⟨id, hconn⟩, -⟩ := he
    simp only [Server.step] at hs
    have hagain : r ≠ .again := by
      -- the `client_t` allocated is never freed
      rintro rfl
      rw [readCb_keep (show Read.again.verdict behind = .keep from rfl), Except.ok.injEq] at hs
      subst hs
      have hfresh : s.malloc.2.heap s.nextPtr = some .fresh := Function.update_self ..
      obtain ⟨c, hc, -⟩ := hgood.live hfresh
      cases hc
    have hold {p : Nat} {c : Client} (hc : s.heap p = some (.client c)) : p ≠ s.nextPtr := by
      have := h.ptr (show s.heap p ≠ none by simp [hc])
      omega
    rcases readCb_inv hs with hv | ⟨hv, hr, hf⟩ | ⟨n, hv, hdb, hr, hf⟩
    · exact absurd (Read.verdict_keep hv) hagain
    · obtain ⟨log, hok, htrace⟩ := readCb_close db hv hr hf
      rw [hok, Except.ok.injEq] at hs
      subst hs
      rw [hconn] at htrace
      refine ⟨⟨hagain, ?_⟩, hstill htrace rfl, fun n hn => ?_⟩
      · rintro ⟨p, c, hc, rfl⟩
        have hp := hold hc
        obtain ⟨id, hid⟩ := (hgood.conn (c := c) (by rw [hungUp_heap, if_neg hp, hc])).1
        rw [hungUp_files, if_pos rfl] at hid
        cases hid
      · rw [hv] at hn
        cases hn
    · obtain ⟨log, hok, htrace⟩ := readCb_query s fd hv hdb hr hf
      rw [hok, Except.ok.injEq] at hs
      subst hs
      rw [hconn] at htrace
      refine ⟨⟨hagain, ?_⟩, hstill htrace rfl, fun _ _ => ?_⟩
      · rintro ⟨p, c, hc, rfl⟩
        have hp := hold hc
        have hkept : (s.asked c.fd n db log).heap p = some (.client c) := by
          rw [asked_heap, if_neg hp, hc]
        exact hp (hgood.alone hkept (Function.update_self ..) rfl)
      · by_contra hout
        exact hin ⟨by simp, hout⟩
  | reply fd rows =>
    obtain ⟨-, p, hp⟩ := he
    simp only [Server.step, hp, dbBinCb] at hs
    obtain ⟨trees, rfl, hw⟩ := hwalk
    obtain ⟨c, writes, log, hc, hb, rfl, htrace⟩ := h.fmtResBin_inv hs
    rw [bytes_map] at hm
    obtain ⟨id, hconn⟩ := (h.conn hc).1
    rw [hconn] at htrace
    exact ⟨hstill htrace rfl (body_ne_nil hb), trees, rfl, hw,
      (body_ok_iff scale junk c.tile hw hm).mp ⟨writes, hb⟩⟩

/-- **Server state invariant.** With iterations enough for its results, a run
of orderly moments goes through, the process alive and the three tables
agreeing all along; and where the cursor gets through the results, no other run
does. -/
theorem consistent_iff (hr : 0 ≤ listenSock ∧ InSet listenSock) (ms : List Moment) :
    ∃ least, ∀ fuel, least ≤ fuel →
      Feasible (servedProcess scale junk fuel) (.init listenSock) ms →
      (Meets (servedProcess scale junk fuel) Server.Orderly (.init listenSock) ms →
        Safe (servedProcess scale junk fuel) Server.Consistent (.init listenSock) ms) ∧
      ((∀ m ∈ ms, m.event.Walkable) →
        Safe (servedProcess scale junk fuel) Server.Consistent (.init listenSock) ms →
        Meets (servedProcess scale junk fuel) Server.Orderly (.init listenSock) ms) := by
  have hrange : Server.InRange listenSock := by
    have hbound : ((Picoev.fdSetSize : Nat) : Fd) ≤ maxFd := by decide
    exact ⟨hr.1, lt_of_lt_of_le hr.2 hbound⟩
  refine ⟨(ms.map fun m => m.event.bytes).sum, fun fuel hfuel hf => ?_⟩
  have hq : ∀ m ∈ ms, m.event.bytes ≤ fuel := fun m hm =>
    (List.le_sum_of_mem (List.mem_map.mpr ⟨m, hm, rfl⟩)).trans hfuel
  constructor
  · intro hp
    exact safe_of_meets (fun _ h => h.toConsistent)
      (fun _ _ h hm he ho => h.happens hm he ho) (Server.Inv.init hrange) hq hf hp
  · intro hw hsafe
    exact meets_of_safe (fun _ _ h hm he ho => h.happens hm.1 he ho)
      (fun _ _ _ h hm he hs hgood => h.orderly hm he hs hgood) (Server.Inv.init hrange)
      (fun m hm => ⟨hq m hm, hw m hm⟩) hf hsafe

end
-- ---------------------------------------------------------------------------
-- A run with a hang-up in flight, and one with two requests in flight
-- ---------------------------------------------------------------------------

abbrev plainServed (fuel : Nat) : System Server Moment Stop :=
  servedProcess (fun _ _ _ => 0) (fun _ => 0) fuel

/-- While every client is still there. -/
def calm (es : List Event) : List Moment := es.map fun e => ⟨e, false⟩

theorem happens_calm {s s' : Server} {e : Event} {fuel : Nat}
    (hs : (server (fun _ _ _ => 0) (fun _ => 0) fuel).step s e = .ok s') (hb : ¬ s'.Beyond e) :
    (plainServed fuel).step s ⟨e, false⟩ = .ok s' := by
  have hcalm : (⟨e, false⟩ : Moment).gone = true → s.wrote s' = false := Bool.noConfusion
  exact happens_ok hs hcalm hb

def hangUpInFlight : List Event :=
  [.accept 5, .readable 5 tileRequest [] (newDb 6), .readable 5 .eof [] (newDb 7),
    .reply 6 [oneLine]]

theorem request_served (fd sock : Fd) :
    (Event.readable fd tileRequest [] (newDb sock)).Served := by
  refine ⟨?_, rfl, rfl⟩
  rw [tileRequest_query]
  exact Verdict.noConfusion

theorem consistency_fails : Feasible (plainServed 1) (.init 3) (calm hangUpInFlight) ∧
    ¬ Always (plainServed 1) Server.Consistent (.init 3) (calm hangUpInFlight) ∧
    ¬ Safe (plainServed 1) (fun _ => True) (.init 3) (calm hangUpInFlight) := by
  obtain ⟨log₂, h₂⟩ := oneConn_request
  obtain ⟨log₃, h₃, -⟩ := readCb_close (newDb 7) (show Read.eof.verdict [] = .close from rfl)
    (by decide) (show (waiting log₂).fds 5 ≠ none from Option.some_ne_none _)
  rw [← server_readable (fun _ _ _ => 0) (fun _ => 0) 1] at h₃
  have h₁ := happens_calm init_accept (fun hb => absurd hb.2 (by decide))
  replace h₂ := happens_calm h₂ (fun hb => absurd hb.2 (by decide))
  replace h₃ := happens_calm h₃ (fun hb => absurd hb.2 (by decide))
  have hclient : ((waiting log₂).hungUp 5 log₃).heap 0 = some (.client firstClient) := rfl
  refine ⟨?_, fun h => ?_, fun h => ?_⟩
  · refine Meets.cons ⟨init_accept_enabled, trivial⟩ h₁
      (Meets.cons ⟨oneConn_request_enabled, request_served 5 6⟩ h₂ (Meets.cons ?_ h₃ ?_))
    · exact ⟨⟨⟨0, rfl⟩, rfl, trivial, fun _ _ => ⟨by decide, rfl⟩⟩, Verdict.noConfusion, rfl, rfl⟩
    · exact ⟨⟨⟨⟨0, rfl⟩, 0, rfl⟩, trivial⟩, fun _ _ => trivial⟩
  · obtain ⟨id, hid⟩ := ((((h.tail h₁).tail h₂).tail h₃).head.conn hclient).1
    cases hid
  · obtain ⟨-, s', hok, -⟩ := ((Safe.tail h h₁).tail h₂).tail h₃
    obtain ⟨hok, -⟩ := happens_inv hok
    have hreply : ((waiting log₂).hungUp 5 log₃).fds 6 = some (.dbBinCb 0) := rfl
    have hok := (server_reply (fun _ _ _ => 0) (fun _ => 0) 1 _ hreply [oneLine]).symm.trans hok
    -- the descriptor is deregistered already
    obtain ⟨c, writes, hc, -, -, ⟨-, hreg⟩, -⟩ := fmtResBin_inv hok
    rw [hclient] at hc
    cases hc
    exact hreg rfl

theorem oneLine_walkable : [oneLine] = [something].map TreeRow.row ∧
    (∀ t ∈ [something], t.Walkable) ∧ Roomy [something] := by
  refine ⟨rfl, fun t ht => ?_, by decide⟩
  rw [List.mem_singleton.mp ht]
  exact ⟨trivial, by decide⟩

theorem consistent_twoRequests : ∃ least, ∀ fuel, least ≤ fuel →
    Safe (plainServed fuel) Server.Consistent (.init 3) (calm twoRequests) := by
  obtain ⟨hrows, hw, hroom⟩ := oneLine_walkable
  obtain ⟨least, hall⟩ := @consistent_iff (fun _ _ _ => 0) (fun _ => 0) _
    (show 0 ≤ (3 : Fd) ∧ InSet 3 by decide) (calm twoRequests)
  refine ⟨max least (totalLength [something]), fun fuel hf => ?_⟩
  have hbody : ∃ writes, body (fun _ _ _ => 0) (fun _ => 0) fuel (Longs.tile ⟨3, 2, 1⟩) [oneLine] =
      .ok writes := by
    rw [hrows]
    exact (body_ok_iff _ _ _ hw ((le_max_right _ _).trans hf)).mpr hroom
  obtain ⟨writes, hb⟩ := hbody
  obtain ⟨l₂, l₄, l₅, l₇, h₁, h₂, h₃, h₄, h₅, h₆, h₇⟩ := twoRequests_steps _ _ _ hb
  obtain ⟨e₁, e₂, e₃, e₄, e₅, e₆, e₇⟩ := @twoRequests_enabled l₂ l₄ l₅
  replace h₁ := happens_calm h₁ fun hb => absurd hb.2 (by decide)
  replace h₂ := happens_calm h₂ fun hb => absurd hb.2 (by decide)
  replace h₃ := happens_calm h₃ fun hb => absurd hb.2 (by decide)
  replace h₄ := happens_calm h₄ fun hb => absurd hb.2 (by decide)
  replace h₅ := happens_calm h₅ id
  replace h₆ := happens_calm h₆ fun hb => absurd hb.2 (by decide)
  replace h₇ := happens_calm h₇ id
  have hreply : (false = false) ∧ ∃ trees : List TreeRow, [oneLine] = trees.map TreeRow.row ∧
      (∀ t ∈ trees, t.Walkable) ∧ Roomy trees := ⟨rfl, [something], hrows, hw, hroom⟩
  refine (hall fuel ((le_max_left _ _).trans hf) ?_).1 ?_
  · exact .cons ⟨e₁, trivial⟩ h₁ (.cons ⟨e₂, request_served 5 6⟩ h₂ (.cons ⟨e₃, trivial⟩ h₃
      (.cons ⟨e₄, request_served 7 8⟩ h₄ (.cons ⟨e₅, trivial⟩ h₅ (.cons ⟨e₆, trivial⟩ h₆
        (.cons ⟨e₇, trivial⟩ h₇ trivial))))))
  · refine .cons (show InSet 5 by decide) h₁ (.cons ⟨⟨Read.noConfusion, oneConn_nobody 5⟩,
      fun _ => rfl, fun _ _ => by decide⟩ h₂ (.cons (show InSet 7 by decide) h₃
      (.cons ⟨⟨Read.noConfusion, fun h => ?_⟩, fun _ => rfl, fun _ _ => by decide⟩ h₄
        (.cons hreply h₅ (.cons (show InSet 5 by decide) h₆ (.cons hreply h₇ trivial))))))
    exact absurd (@waiting_first l₂ _ h) (by decide)

end Canvasback
