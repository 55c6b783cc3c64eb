import Canvasback.Server.OnPicoev

/-!
# Turns of the loop

`main` of canvasback as a program on picoev. Whatever a turn does, it does as
moments of the process one after the other; and whatever the process does at a
moment, a turn does.
-/

namespace Canvasback.OnPicoev

open CString Picoev Runs

instance (s : Server) (fd : Fd) : Decidable (s.Unused fd) := inferInstanceAs (Decidable (_ ∧ _))

/-- What the system has for a descriptor: the number `accept` gives, what
`read` returns and memory holds behind it, what libpq does, and whether the
client written to is gone. -/
structure Answer where
  newfd : Fd
  read : Read
  behind : List UInt8
  db : Libpq
  rows : List Row
  gone : Bool
  fits : read.Fits

/-- An `fd_set` has a bit for the numbers given out. -/
def Answer.InSet (a : Answer) : Prop := Server.InSet a.newfd ∧ Server.InSet a.db.sock

/-- A number in use is not given out. -/
def grant (s : Server) (fd : Fd) : Fd := if s.Unused fd then fd else -1

def grantDb (s : Server) (db : Libpq) : Libpq :=
  if db.bad = false ∧ pollLoop db.polls = some .ok ∧ ¬ s.Unused db.sock then
    { db with bad := true }
  else db

/-- What comes to the server when a callback is called. -/
def event (s : Server) (fd : Fd) (a : Answer) : Callback → Event
  | .acceptCb => .accept (grant s a.newfd)
  | .readCb => .readable fd a.read a.behind (grantDb s a.db)
  | .dbBinCb _ => .reply fd a.rows

def moment (s : Server) (fd : Fd) (a : Answer) (callback : Callback) : Moment :=
  ⟨event s fd a callback, a.gone⟩

section
variable (scale : Scale) (junk : Nat → UInt8) (fuel : Nat)

/-- A callback with its answer. -/
def react (fd : Nat) (revents : Revents) (l : State) (a : Answer) :
    Callback → Except Fault State
  | .acceptCb => acceptCb l revents (grant l.world a.newfd)
  | .readCb => readCb l fd revents a.read a.behind (grantDb l.world a.db)
  | .dbBinCb client => dbBinCb scale junk fuel l client a.rows

/-- A callback, and the signal its writes raise if the client is gone. -/
def call (answers : Nat → Answer) (callback : Callback) (fd : Nat) (revents : Revents)
    (l : State) : Except Fault State := do
  let l' ← react scale junk fuel fd revents l (answers fd) callback
  if (answers fd).gone ∧ l.world.wrote l'.world then .error .program else .ok l'

/-- The loop of `main`; no timeout is asked for. -/
def canvasback : System State (Wake (Nat → Events) × (Nat → Answer)) Fault :=
  Loop.turns (fun answers => ∀ fd, (answers fd).InSet) (call scale junk fuel) 10 0

end

/-- `main`, up to its loop. -/
def start (listenSock : Fd) (time : Int) : Except Fault State :=
  picoevAdd (Loop.create Server.maxFd.toNat 60 time (Server.init listenSock)) listenSock .acceptCb

/-- The loop is where the process can be, and the wheel not left behind. -/
structure Along (scale : Scale) (junk : Nat → UInt8) (fuel : Nat) (listenSock : Fd) (l : State) :
    Prop where
  good : Good l
  resolution : 0 < l.resolution
  inTime : l.now < l.baseTime + vecSize * l.resolution
  reachable : Reachable (process scale junk fuel) (Server.init listenSock) (serverOf l)

/-- The process follows the answers for these descriptors, one after the
other. -/
inductive Follows (scale : Scale) (junk : Nat → UInt8) (fuel : Nat) (answers : Nat → Answer)
    (s₀ : Server) : List Nat → Server → Prop
  | nil : Follows scale junk fuel answers s₀ [] s₀
  | snoc {fds : List Nat} {s s' : Server} {n : Nat} {callback : Callback}
      (h : Follows scale junk fuel answers s₀ fds s) (hcb : s.fds n = some callback)
      (he : (process scale junk fuel).enabled s (moment s n (answers n) callback))
      (hs : (process scale junk fuel).step s (moment s n (answers n) callback) = .ok s') :
      Follows scale junk fuel answers s₀ (fds ++ [n]) s'

/-- What was called since `l` were answers the process follows. -/
def Answered (scale : Scale) (junk : Nat → UInt8) (fuel : Nat) (answers : Nat → Answer)
    (l l' : State) : Prop :=
  ∃ es, l'.log = l.log ++ es ∧ (∀ e ∈ es, e.revents ≠ .timeout) ∧
    Follows scale junk fuel answers (serverOf l) (es.map Called.fd) (serverOf l')

/-- A turn, the answers of which the process follows. -/
structure Done (scale : Scale) (junk : Nat → UInt8) (fuel : Nat) (wake : Wake (Nat → Events))
    (answers : Nat → Answer) (l l' : State) : Prop where
  answered : Answered scale junk fuel answers l l'
  turned : ∀ ready, wake.ready = some ready →
    Loop.Turned (call scale junk fuel answers) 10 ready wake l l'
  failed : wake.ready = none → l' = l.tick wake.before

/-- The pass comes to an answer from which the process does not come back, for
this reason. -/
def Breaks (scale : Scale) (junk : Nat → UInt8) (fuel : Nat) (wake : Wake (Nat → Events))
    (answers : Nat → Answer) (l : State) (fault : Fault) : Prop :=
  ∃ ready n mid callback stop, wake.ready = some ready ∧
    (l.tick wake.before).Comes (call scale junk fuel answers) ready n mid ∧
    (l.tick wake.before).found ready n ≠ .none ∧ Answered scale junk fuel answers l mid ∧
    (serverOf mid).fds n = some callback ∧
    (process scale junk fuel).enabled (serverOf mid)
      (moment (serverOf mid) n (answers n) callback) ∧
    (process scale junk fuel).step (serverOf mid) (moment (serverOf mid) n (answers n) callback) =
      .error stop ∧ fault = stop.fault

/-- Within a turn that began at `l`. -/
structure During (scale : Scale) (junk : Nat → UInt8) (fuel : Nat) (answers : Nat → Answer)
    (l l' : State) : Prop where
  good : Good l'
  resolution : 0 < l'.resolution
  inTime : l'.now < l'.baseTime + vecSize * l'.resolution
  answered : Answered scale junk fuel answers l l'

section
variable {scale : Scale} {junk : Nat → UInt8} {fuel : Nat} {s : Server} {l l' l₀ : State}
  {fd listenSock : Fd} {n : Nat} {a : Answer} {answers : Nat → Answer} {callback : Callback}
  {revents : Revents} {time : Int}

-- ---------------------------------------------------------------------------
-- A call and an event
-- ---------------------------------------------------------------------------

/-- `select` has a bit for what comes into use. -/
theorem event_inSet (h : a.InSet) : (event s fd a callback).InSet := by
  obtain ⟨hnew, hsock⟩ := h
  cases callback with
  | acceptCb =>
    show Server.InSet (grant s a.newfd)
    unfold grant
    split
    · exact hnew
    · decide
  | readCb =>
    show Server.InSet (grantDb s a.db).sock
    unfold grantDb
    split <;> exact hsock
  | dbBinCb client => trivial

theorem react_matches (h : Seen l s) (hcb : s.fds n = some callback) (hr : Reads revents) :
    Matches Seen Told (react scale junk fuel n revents l a callback)
      (s.step scale junk fuel (event s n a callback)) := by
  have hgrant : grant l.world a.newfd = grant s a.newfd := by
    obtain ⟨-, rfl⟩ := h
    rfl
  have hdb : grantDb l.world a.db = grantDb s a.db := by
    obtain ⟨-, rfl⟩ := h
    rfl
  cases callback with
  | acceptCb =>
    rw [react, hgrant]
    exact acceptCb_matches h hr _
  | readCb =>
    rw [react, hdb]
    exact readCb_matches h n hr _ _ _
  | dbBinCb client =>
    have hmatches : Matches Seen Told (fmtResBin scale junk fuel l client a.rows) _ :=
      fmtResBin_matches h client a.rows
    rw [← server_reply scale junk fuel s hcb a.rows] at hmatches
    exact hmatches

theorem call_matches (h : Seen l s) (ha : (answers n).InSet) (hcb : s.fds n = some callback)
    (hr : Reads revents) : Matches Seen Told (call scale junk fuel answers callback n revents l)
      ((process scale junk fuel).step s (moment s n (answers n) callback)) := by
  refine (react_matches h hcb hr).bind fun l' s' h' => ?_
  have hwrote : s.wrote s' = l.world.wrote l'.world := by
    obtain ⟨-, rfl⟩ := h
    obtain ⟨-, rfl⟩ := h'
    rfl
  have hbit : ¬ s'.Beyond (moment s n (answers n) callback).event :=
    Server.not_beyond (m := moment s n (answers n) callback) (event_inSet ha)
  rw [hwrote, if_neg hbit]
  show Matches Seen Told (if (answers n).gone ∧ l.world.wrote l'.world then _ else _)
    (if (answers n).gone ∧ l.world.wrote l'.world then _ else _)
  split
  · exact .error rfl
  · exact .ok h'

/-- What comes is what may come. -/
theorem event_enabled (h : s.Sound) (hcb : s.fds fd = some callback) :
    s.Enabled (event s fd a callback) := by
  obtain ⟨file, hfile, hh⟩ := h.handles hcb
  cases callback with
  | acceptCb =>
    cases file <;> cases hh
    refine ⟨⟨fd, hfile, hcb⟩, ?_⟩
    unfold grant
    split
    · rename_i hu
      exact .inr hu
    · exact .inl rfl
  | readCb =>
    cases file <;> cases hh
    refine ⟨⟨_, hfile⟩, hcb, a.fits, fun hbad hpoll => ?_⟩
    unfold grantDb at hbad hpoll ⊢
    split at hbad
    · cases hbad
    · rename_i hno
      rw [if_neg hno] at hpoll ⊢
      by_contra hu
      exact hno ⟨hbad, hpoll, hu⟩
  | dbBinCb client =>
    cases file <;> cases hh
    exact ⟨⟨_, hfile⟩, client, hcb⟩

/-- Whatever may come, comes so. -/
theorem enabled_moment {m : Moment} (he : (process scale junk fuel).enabled s m) :
    ∃ fd callback a, s.fds fd = some callback ∧ a.InSet ∧ moment s fd a callback = m := by
  obtain ⟨e, gone⟩ := m
  obtain ⟨he, hin⟩ := he
  cases e with
  | accept newfd =>
    obtain ⟨⟨fd, hfile, hcb⟩, hnew⟩ := he
    refine ⟨fd, .acceptCb, ⟨newfd, .again, [], ⟨true, [], 0, false⟩, [], gone, trivial⟩, hcb,
      ⟨hin, show Server.InSet 0 by decide⟩, ?_⟩
    have hgrant : grant s newfd = newfd := by
      rcases hnew with rfl | hu
      · unfold grant
        split <;> rfl
      · exact if_pos hu
    show (⟨.accept (grant s newfd), gone⟩ : Moment) = _
    rw [hgrant]
  | readable fd r behind db =>
    obtain ⟨hfile, hcb, hfits, hu⟩ := he
    refine ⟨fd, .readCb, ⟨-1, r, behind, db, [], gone, hfits⟩, hcb,
      ⟨show Server.InSet (-1) by decide, hin⟩, ?_⟩
    have hgrant : grantDb s db = db := if_neg fun hc => hc.2.2 (hu hc.1 hc.2.1)
    show (⟨.readable fd r behind (grantDb s db), gone⟩ : Moment) = _
    rw [hgrant]
  | reply fd rows =>
    obtain ⟨hfile, client, hcb⟩ := he
    exact ⟨fd, .dbBinCb client, ⟨-1, .again, [], ⟨true, [], 0, false⟩, rows, gone, trivial⟩, hcb,
      ⟨show Server.InSet (-1) by decide, show Server.InSet 0 by decide⟩, rfl⟩

-- ---------------------------------------------------------------------------
-- Calls of picoev
-- ---------------------------------------------------------------------------

/-- From one state to another by calls of picoev.h. -/
abbrev ActsOn (l l' : State) : Prop := Loop.Acts select 0 (fun _ => True) l l'

theorem picoevAdd_acts (ha : ActsOn l₀ l) (h : picoevAdd l fd callback = .ok l') :
    ActsOn l₀ l' := by
  unfold picoevAdd at h
  split at h
  · exact .call (c := .add fd.toNat ⟨true, false⟩ 0 callback) ha trivial ⟨le_rfl, le_rfl⟩ h
  · cases h

theorem picoevDel_acts {who : Actor} (ha : ActsOn l₀ l) (h : picoevDel l who fd = .ok l') :
    ActsOn l₀ l' := by
  unfold picoevDel at h
  split at h
  · obtain ⟨l₁, hdel, h⟩ := bind_eq_ok.mp h
    cases h
    exact .world (.call (c := .del fd.toNat) ha trivial ⟨le_rfl, le_rfl⟩ hdel) _
  · cases h

theorem closeExit_acts {who : Actor} {client : Nat} (ha : ActsOn l₀ l)
    (h : closeExit l who fd client = .ok l') : ActsOn l₀ l' := by
  obtain ⟨l₁, hdel, h⟩ := bind_eq_ok.mp h
  obtain ⟨w, -, h⟩ := bind_eq_ok.mp h
  cases h
  exact .world (.world (picoevDel_acts ha hdel) _) w

theorem readCb_acts {r : Read} {behind : List UInt8} {db : Libpq}
    (h : readCb l fd revents r behind db = .ok l') : ActsOn l l' := by
  have hmalloc : ActsOn l (onWorld l fun s => s.malloc.2) := .world .refl _
  unfold readCb at h
  simp only at h
  split at h
  · split at h
    · exact closeExit_acts hmalloc h
    · cases h
      exact hmalloc
    · exact closeExit_acts hmalloc h
    · split at h
      · cases h
      · split at h
        · exact closeExit_acts (.world hmalloc _) h
        · obtain ⟨⟨conn, w⟩, -, h⟩ := bind_eq_ok.mp h
          exact picoevAdd_acts (.world (.world (.world hmalloc _) w) _) h
  · cases h

theorem acceptCb_acts {newfd : Fd} (h : acceptCb l revents newfd = .ok l') : ActsOn l l' := by
  unfold acceptCb at h
  split at h
  · split at h
    · cases h
      exact .refl
    · exact picoevAdd_acts (.world .refl _) h
  · cases h

theorem fmtResBin_acts {client : Nat} {rows : List Row}
    (h : fmtResBin scale junk fuel l client rows = .ok l') : ActsOn l l' := by
  obtain ⟨c, -, h⟩ := bind_eq_ok.mp h
  cases rows with
  | nil =>
    obtain ⟨w, -, h⟩ := bind_eq_ok.mp h
    obtain ⟨l₁, h₁, h⟩ := bind_eq_ok.mp h
    obtain ⟨l₂, h₂, h⟩ := bind_eq_ok.mp h
    obtain ⟨w', -, h⟩ := bind_eq_ok.mp h
    cases h
    have ha₁ := picoevDel_acts (.world (.world .refl _) w) h₁
    exact .world (.world (picoevDel_acts ha₁ h₂) _) w'
  | cons row rows =>
    simp only at h
    split at h
    · cases h
    · obtain ⟨w, -, h⟩ := bind_eq_ok.mp h
      obtain ⟨l₁, h₁, h⟩ := bind_eq_ok.mp h
      obtain ⟨l₂, h₂, h⟩ := bind_eq_ok.mp h
      obtain ⟨w', -, h⟩ := bind_eq_ok.mp h
      cases h
      have ha₁ := picoevDel_acts (.world (.world (.world .refl _) w) _) h₁
      exact .world (picoevDel_acts ha₁ h₂) w'

theorem call_acts (h : call scale junk fuel answers callback n revents l = .ok l') :
    ActsOn l l' := by
  obtain ⟨l₁, hcall, h⟩ := bind_eq_ok.mp h
  split at h
  · cases h
  · cases h
    cases callback with
    | acceptCb => exact acceptCb_acts hcall
    | readCb => exact readCb_acts hcall
    | dbBinCb client => exact fmtResBin_acts hcall

-- ---------------------------------------------------------------------------
-- Turns
-- ---------------------------------------------------------------------------

theorem Acts.same {l l' : State} (h : ActsOn l l') : l.Same l' := by
  induction h with
  | refl => exact .refl _
  | call _ _ _ hr ih => exact ih.trans (Loop.Call.same Loop.select_lawful hr)
  | world _ w ih => exact ih.trans (Loop.setWorld_polite _ w 0).toSame

/-- The table is as it was. -/
theorem Good.still (h : Good l) (rows : Nat → TwoLevel.Rows 16) (baseIdx : Nat) (baseTime now : Int)
    (log : List Called) : Good { l with rows, baseIdx, baseTime, now, log } :=
  ⟨h.maxFd, h.loopId, h.free, h.callback, h.events, h.idle⟩

theorem Good.logged (h : Good l) (n : Nat) (revents : Revents) :
    Seen (l.logged n revents) (serverOf l) := ⟨h.still .., rfl⟩

theorem registered_some (hb : l.Belongs n)
    (hcb : (l.fds n).callback = some callback) : (serverOf l).fds n = some callback := by
  show (if 0 ≤ (n : Int) ∧ l.Belongs n then (l.fds n).callback else none) = some callback
  rw [if_pos ⟨Int.natCast_nonneg n, hb⟩, hcb]

theorem registered_inv (h : (serverOf l).fds fd = some callback) :
    ∃ n : Nat, fd = n ∧ l.Belongs n ∧ (l.fds n).callback = some callback := by
  have h : registered l fd = some callback := h
  unfold registered at h
  split at h
  · rename_i hc
    exact ⟨fd.toNat, (Int.toNat_of_nonneg hc.1).symm, hc.2, h⟩
  · cases h

/-- No descriptor has a timeout. -/
theorem Good.not_firing {fd : Nat} (h : Good l) : ¬ l.Firing fd callback := by
  intro hf
  have hidle := h.idle hf.armed.1
  have hslot := hf.armed.2
  have hbase := hf.core.base
  simp only [hidle, vecSize, unused] at *
  omega

theorem found_read (h : Good l) {ready : Nat → Events} (hf : l.found ready n ≠ .none) :
    (l.found ready n).read = true := by
  unfold Loop.found at hf ⊢
  split at hf
  · rename_i hb
    rw [if_pos hb, h.events hb] at *
    cases hready : (ready n).read with
    | true => rfl
    | false => simp [hready, Events.none] at hf
  · exact absurd rfl hf

theorem Follows.reachable {fds : List Nat} {s₀ : Server}
    (h : Follows scale junk fuel answers s₀ fds s)
    (h₀ : Reachable (process scale junk fuel) (Server.init listenSock) s₀) :
    Reachable (process scale junk fuel) (Server.init listenSock) s := by
  induction h with
  | nil => exact h₀
  | snoc _ _ he hs ih => exact ih.step he hs

theorem During.refl (h : Along scale junk fuel listenSock l) :
    During scale junk fuel answers l l :=
  ⟨h.good, h.resolution, h.inTime, [], (List.append_nil _).symm,
    fun _ he => absurd he List.not_mem_nil, .nil⟩

theorem During.along (ha : Along scale junk fuel listenSock l)
    (h : During scale junk fuel answers l l') : Along scale junk fuel listenSock l' := by
  obtain ⟨es, -, -, hfollows⟩ := h.answered
  exact ⟨h.good, h.resolution, h.inTime, hfollows.reachable ha.reachable⟩

/-- The wheel moves, and nobody sees it. -/
theorem During.still (h : During scale junk fuel answers l l') (rows : Nat → TwoLevel.Rows 16)
    (baseIdx : Nat) {baseTime now : Int} (htime : now < baseTime + vecSize * l'.resolution) :
    During scale junk fuel answers l { l' with rows, baseIdx, baseTime, now } :=
  ⟨h.good.still .., h.resolution, htime, h.answered⟩

theorem During.offWheel : Loop.OffWheel (During scale junk fuel answers l) := by
  refine ⟨fun h => h.still _ _ h.inTime, fun h => h.still _ _ h.inTime,
    fun h => h.still _ _ ?_⟩
  have := h.resolution
  have := h.inTime
  linarith

theorem Along.narrow (hr : Server.InRange listenSock) (hin : Server.InSet listenSock)
    (h : Along scale junk fuel listenSock l) : l.Narrow := by
  intro n hb
  obtain ⟨callback, hcb⟩ := Option.ne_none_iff_exists'.mp (h.good.callback hb)
  have hreg : (serverOf l).fds n ≠ none := by
    rw [registered_some hb hcb]
    exact Option.some_ne_none _
  exact Int.ofNat_lt.mp (Server.narrow_of_process hr hin h.reachable n hreg)

theorem Along.enabled (hr : Server.InRange listenSock) (h : Along scale junk fuel listenSock l)
    (ht : a.InSet) (hcb : (serverOf l).fds fd = some callback) :
    (process scale junk fuel).enabled (serverOf l) (moment (serverOf l) fd a callback) :=
  ⟨event_enabled (sound_of_reachable hr (Server.reachable_of_process h.reachable)) hcb,
    event_inSet ht⟩

/-- A callback called for events is an answer the process follows. -/
theorem During.call (hr : Server.InRange listenSock) (ha : Along scale junk fuel listenSock l)
    (ht : ∀ fd, (answers fd).InSet) (h : During scale junk fuel answers l l') (hb : l'.Belongs n)
    (hcb : (l'.fds n).callback = some callback) {events : Events} (hread : events.read = true) :
    ComesTo (call scale junk fuel answers callback n (.io events) (l'.logged n (.io events)))
      (fun l'' => ActsOn (l'.logged n (.io events)) l'' ∧ During scale junk fuel answers l l'')
      fun fault => ∃ stop, (process scale junk fuel).step (serverOf l')
        (moment (serverOf l') n (answers n) callback) = .error stop ∧ fault = stop.fault := by
  have hreg := registered_some hb hcb
  have henabled := (h.along ha).enabled hr (ht n) hreg
  have hmatches : Matches Seen Told
      (OnPicoev.call scale junk fuel answers callback n (.io events)
        (l'.logged n (.io events))) _ :=
    call_matches (h.good.logged n (.io events)) (ht n) hreg (show Reads (.io events) from hread)
  obtain ⟨es, hlog, huntimed, hfollows⟩ := h.answered
  have hcall := hmatches.comesTo.and fun l'' hl'' => call_acts hl''
  refine hcall.mono (fun l'' ⟨hacts, s', hs', hgood, hserver⟩ => ⟨hacts, ?_⟩) fun _ he => he
  have hs := Acts.same hacts
  refine ⟨hgood, ?_, ?_, es ++ [⟨n, .io events, l'.now, (l'.fds n).deadline⟩], ?_,
    fun e he => ?_, ?_⟩
  · rw [hs.resolution]
    exact h.resolution
  · rw [hs.now, hs.baseTime, hs.resolution]
    exact h.inTime
  · rw [hs.log]
    show l'.log ++ _ = _
    rw [hlog, List.append_assoc]
  · rcases List.mem_append.mp he with he | he
    · exact huntimed e he
    · rw [List.mem_singleton.mp he]
      exact Revents.noConfusion
  · rw [List.map_append, ← hserver]
    exact hfollows.snoc hreg henabled hs'

/-- No timeout is handled. -/
theorem During.keepsTime {E : Fault → Prop} (mid : State) :
    Loop.KeepsTime select 0 (OnPicoev.call scale junk fuel answers) mid
      (During scale junk fuel answers l) E :=
  ⟨During.offWheel, fun _ h hf => absurd hf h.good.not_firing⟩

theorem call_serves (hr : Server.InRange listenSock) (hin : Server.InSet listenSock)
    (ha : Along scale junk fuel listenSock l) (ht : ∀ fd, (answers fd).InSet)
    {wake : Wake (Nat → Events)} {ready : Nat → Events} (hready : wake.ready = some ready) :
    Loop.Serves select 0 (call scale junk fuel answers) ready (l.tick wake.before)
      (During scale junk fuel answers l) (Breaks scale junk fuel wake answers l) := by
  refine ⟨fun h => (h.along ha).narrow hr hin, fun {n mid callback} hcomes h hf hb hcb => ?_⟩
  have hgood : Good (l.tick wake.before) := ha.good.still ..
  refine (h.call hr ha ht hb hcb (found_read hgood hf)).mono
    (fun l' hl' => ⟨hl'.1.mono fun _ _ => trivial, hl'.2⟩) fun fault ⟨stop, hstop, hfault⟩ => ?_
  have hreg := registered_some hb hcb
  exact ⟨ready, n, mid, callback, stop, hready, hcomes, hf, h.answered, hreg,
    (h.along ha).enabled hr (ht n) hreg, hstop, hfault⟩

/-- A turn in which `select` succeeds. -/
theorem turn_during (hr : Server.InRange listenSock) (hin : Server.InSet listenSock) (hok : l.Ok)
    (h : Along scale junk fuel listenSock l) (ht : ∀ fd, (answers fd).InSet)
    {wake : Wake (Nat → Events)} {ready : Nat → Events} (hw : l.Fits 0 wake)
    (hready : wake.ready = some ready) :
    ComesTo (Loop.loopOnce (call scale junk fuel answers) 10 Loop.pollFailed
        (Loop.pollOnce (call scale junk fuel answers)) wake l)
      (fun l' => Loop.Turned (call scale junk fuel answers) 10 ready wake l l' ∧
        During scale junk fuel answers l l')
      (Breaks scale junk fuel wake answers l) :=
  Loop.loopOnce_served Loop.select_lawful (call_serves hr hin h ht hready) During.keepsTime
    (fun htime h => h.still _ _ (by omega)) hok (.refl h) hw hready

-- ---------------------------------------------------------------------------
-- Runs
-- ---------------------------------------------------------------------------

/-- The loop before anything is in its table. -/
def blank (listenSock : Fd) (time : Int) : State :=
  Loop.create Server.maxFd.toNat 60 time (Server.init listenSock)

theorem blank_unregistered : registered (blank listenSock time) = fun _ => none := by
  funext fd
  exact if_neg fun hc => nomatch hc.2

theorem blank_good : Good (blank listenSock time) :=
  ⟨rfl, Nat.one_ne_zero, fun _ => rfl, fun hb => (nomatch hb), fun hb => (nomatch hb),
    fun hb => (nomatch hb)⟩

theorem start_ok (h₀ : start listenSock time = .ok l₀) :
    l₀.Ok ∧ Seen l₀ (Server.init listenSock) ∧ l₀.now = l₀.baseTime := by
  have hacts : ActsOn (blank listenSock time) l₀ := picoevAdd_acts .refl h₀
  have hsame := Acts.same hacts
  have hok : l₀.Ok := by
    refine (hacts.ok Loop.select_lawful (Loop.create_ok (by decide)) ?_).1
    show time + 0 < time + (vecSize : Int) * ((rndUp 60 vecSize / vecSize : Nat) : Int)
    have : (vecSize : Int) * ((rndUp 60 vecSize / vecSize : Nat) : Int) = 128 := by decide
    omega
  have hadd := picoevAdd_matches (l := blank listenSock time) ⟨blank_good, rfl⟩ listenSock .acceptCb
  obtain ⟨s, hs, hgood, hserver⟩ := hadd.comesTo.of_ok h₀
  obtain ⟨-, rfl⟩ := Server.picoevAdd_inv hs
  have hinit : serverOf l₀ = Server.init listenSock := by
    rw [← hserver]
    show { (serverOf (blank listenSock time)) with
      fds := Function.update (registered (blank listenSock time)) listenSock (some .acceptCb) } = _
    rw [blank_unregistered]
    rfl
  refine ⟨hok, ⟨hgood, hinit.symm⟩, ?_⟩
  rw [hsame.now, hsame.baseTime]
  rfl

/-- The clock goes on, and nobody sees it. -/
theorem Along.tick (h : Along scale junk fuel listenSock l) {t : Int}
    (ht : t < l.baseTime + vecSize * l.resolution) :
    Along scale junk fuel listenSock (l.tick t) :=
  ⟨h.good.still .., h.resolution, ht, h.reachable⟩

/-- What holds of every state the loop comes to. -/
theorem along_of_reachable (hr : Server.InRange listenSock) (hin : Server.InSet listenSock)
    (h₀ : start listenSock time = .ok l₀) (h : Reachable (canvasback scale junk fuel) l₀ l) :
    l.Ok ∧ Along scale junk fuel listenSock l := by
  obtain ⟨hok, ⟨hgood, hseen⟩, hnow⟩ := start_ok h₀
  have hres := hok.resolution
  have halong : Along scale junk fuel listenSock l₀ :=
    ⟨hgood, hres, by simp only [vecSize]; omega, hseen ▸ .refl⟩
  refine Loop.turns_invariant (fun h => h.narrow hr hin) (fun htime h => h.tick (by omega))
    (fun ht hok h hw hready l' hrun => ?_) hok halong h
  obtain ⟨hturned, hduring⟩ := (turn_during hr hin hok h ht hw hready).of_ok hrun
  exact ⟨hturned, hduring.along h⟩

/-- Whatever a turn does, the process does by the answers given. -/
theorem turn_answered (hr : Server.InRange listenSock) (hin : Server.InSet listenSock) (hok : l.Ok)
    (h : Along scale junk fuel listenSock l) {wake : Wake (Nat → Events)}
    (he : (canvasback scale junk fuel).enabled l (wake, answers)) :
    ComesTo ((canvasback scale junk fuel).step l (wake, answers))
      (Done scale junk fuel wake answers l) (Breaks scale junk fuel wake answers l) := by
  obtain ⟨hw, ht⟩ := he
  cases hready : wake.ready with
  | none =>
    have hfailed : (canvasback scale junk fuel).step l (wake, answers) =
        .ok (l.tick wake.before) := Loop.turn_failed (h.narrow hr hin) hready
    rw [hfailed]
    exact .ok ⟨⟨[], (List.append_nil _).symm, fun _ he => absurd he List.not_mem_nil, .nil⟩,
      fun ready hsome => absurd (hsome.symm.trans hready) (Option.some_ne_none _), fun _ => rfl⟩
  | some ready =>
    refine (turn_during hr hin hok h ht hw hready).mono (fun l' h' => ?_) fun _ he => he
    refine ⟨h'.2.answered, fun ready' hready' => ?_, fun hnone => ?_⟩
    · obtain rfl := Option.some.inj (hready.symm.trans hready')
      exact h'.1
    · exact absurd (hready.symm.trans hnone) (Option.some_ne_none _)

/-- A turn in which one descriptor is ready and no time passes. -/
def wakeOne (l : State) (n : Nat) : Wake (Nat → Events) :=
  ⟨l.now, some fun fd => ⟨fd = n, false⟩, l.now⟩

/-- In its pass the callback is called and nothing else. -/
theorem pollOnce_one (h : l.Ok) (hg : Good l) (hb : l.Belongs n)
    (hcb : (l.fds n).callback = some callback) (hn : l.Narrow)
    (hafter : ∀ {l'}, call scale junk fuel answers callback n (.io ⟨true, false⟩)
      (l.logged n (.io ⟨true, false⟩)) = .ok l' → l'.Narrow) :
    l.pollOnce (call scale junk fuel answers) (fun fd => ⟨fd = n, false⟩) =
      call scale junk fuel answers callback n (.io ⟨true, false⟩)
        (l.logged n (.io ⟨true, false⟩)) := by
  have hfound (i : Nat) (hi : i ≠ n) : l.found (fun fd => ⟨fd = n, false⟩) i = .none := by
    unfold Loop.found
    split <;> simp [hi, Events.none]
  have hself : l.found (fun fd => ⟨fd = n, false⟩) n = ⟨true, false⟩ := by
    unfold Loop.found
    rw [if_pos hb, hg.events hb]
    simp
  have hne : (⟨true, false⟩ : Events) ≠ .none := by decide
  have hsome : ¬ ∀ fd < l.maxFd, l.found (fun fd => ⟨fd = n, false⟩) fd = .none := by
    intro hall
    exact hne (hself.symm.trans (hall n (h.range hb)))
  have hstep : Loop.dispatch (call scale junk fuel answers)
      (l.found fun fd => ⟨fd = n, false⟩) l n = call scale junk fuel answers callback n
        (.io ⟨true, false⟩) (l.logged n (.io ⟨true, false⟩)) := by
    rw [Loop.dispatch, if_pos hb, if_pos (hn n hb), hself, if_neg hne, Loop.callback, hcb]
  have hskip {l' : State} (hl' : l'.Narrow) {i : Nat} (hi : i ≠ n) :
      Loop.dispatch (call scale junk fuel answers) (l.found fun fd => ⟨fd = n, false⟩) l' i =
        .ok l' := by
    unfold Loop.dispatch
    split
    · rename_i hbel
      rw [if_pos (hl' i hbel), if_pos (hfound i hi)]
    · rfl
  have hsets : l.InSets := fun fd _ hfd _ => hn fd hfd
  rw [Loop.pollOnce, if_pos hsets, if_neg hsome]
  refine (ComesTo.foldlM_range_single (h.range hb) (fun i hi => hskip hn (by omega))
    fun l' hl' i hi => hskip (hafter ?_) (by omega)).trans hstep
  rw [← hstep]
  exact hl'

/-- The turn leaves what the callback leaves, as far as the server sees. -/
theorem turn_one (hr : Server.InRange listenSock) (hin : Server.InSet listenSock) (hok : l.Ok)
    (h : Along scale junk fuel listenSock l) (ht : ∀ fd, (answers fd).InSet) (hb : l.Belongs n)
    (hcb : (l.fds n).callback = some callback) (he : l.Fits 0 (wakeOne l n)) :
    ComesTo ((canvasback scale junk fuel).step l (wakeOne l n, answers))
      (fun l' => ∃ mid, call scale junk fuel answers callback n (.io ⟨true, false⟩)
        (l.logged n (.io ⟨true, false⟩)) = .ok mid ∧ serverOf l' = serverOf mid)
      fun fault => call scale junk fuel answers callback n (.io ⟨true, false⟩)
        (l.logged n (.io ⟨true, false⟩)) = .error fault := by
  have hcall : ComesTo (call scale junk fuel answers callback n (.io ⟨true, false⟩)
      (l.logged n (.io ⟨true, false⟩))) _ _ := During.call hr h ht (.refl h) hb hcb rfl
  have hpoll := pollOnce_one hok h.good hb hcb (h.narrow hr hin)
    fun hl' => ((hcall.of_ok hl').2.along h).narrow hr hin
  have hpass : ComesTo (l.pollOnce (call scale junk fuel answers) (fun fd => ⟨fd = n, false⟩))
      (fun mid => l.Stays mid ∧ Good mid ∧ call scale junk fuel answers callback n
        (.io ⟨true, false⟩) (l.logged n (.io ⟨true, false⟩)) = .ok mid)
      fun fault => call scale junk fuel answers callback n (.io ⟨true, false⟩)
        (l.logged n (.io ⟨true, false⟩)) = .error fault := by
    rw [hpoll]
    cases hrun : call scale junk fuel answers callback n (.io ⟨true, false⟩)
        (l.logged n (.io ⟨true, false⟩)) with
    | error fault => exact .error rfl
    | ok mid =>
      have hstays := (Loop.Stays.refl hok).acts Loop.select_lawful
        (by rw [add_zero]; exact h.inTime) (call_acts hrun)
      exact .ok ⟨hstays.1, (hcall.of_ok hrun).2.good, rfl⟩
  -- what timeouts do, with none to handle
  have htime (mid : State) : Loop.KeepsTime select 0 (call scale junk fuel answers)
      (mid.tick ((wakeOne l n).last 10)) (fun l' => Good l' ∧ serverOf l' = serverOf mid)
      fun fault => call scale junk fuel answers callback n (.io ⟨true, false⟩)
        (l.logged n (.io ⟨true, false⟩)) = .error fault :=
    ⟨⟨fun h => ⟨h.1.still .., h.2⟩, fun h => ⟨h.1.still .., h.2⟩, fun h => ⟨h.1.still .., h.2⟩⟩,
      fun _ h hf => absurd hf h.1.not_firing⟩
  show ComesTo (Loop.loopOnce (call scale junk fuel answers) 10 Loop.pollFailed
    (Loop.pollOnce (call scale junk fuel answers)) (wakeOne l n) l) _ _
  refine (Loop.loopOnce_handled (I := fun mid l' => Good l' ∧ serverOf l' = serverOf mid)
    Loop.select_lawful hok he rfl hpass
    fun mid hmid => ⟨htime mid, hmid.1.still .., rfl⟩).mono (fun l' h' => ?_) fun _ he => he
  obtain ⟨mid, hmid, -, -, hserver⟩ := h'
  exact ⟨mid, hmid.2, hserver⟩

/-- Whatever the process does, a turn does where nothing else comes. -/
theorem moment_turn (hr : Server.InRange listenSock) (hin : Server.InSet listenSock) (hok : l.Ok)
    (h : Along scale junk fuel listenSock l) {m : Moment}
    (he : (process scale junk fuel).enabled (serverOf l) m) :
    ∃ turn, (canvasback scale junk fuel).enabled l turn ∧
      Matches (fun l' s' => serverOf l' = s') Told ((canvasback scale junk fuel).step l turn)
        ((process scale junk fuel).step (serverOf l) m) := by
  obtain ⟨fd, callback, a, hreg, ha, rfl⟩ := enabled_moment he
  obtain ⟨n, rfl, hb, hcb⟩ := registered_inv hreg
  have hfits : l.Fits 0 (wakeOne l n) :=
    ⟨le_rfl, le_rfl, by rw [add_zero]; exact h.inTime⟩
  have hmatches : Matches Seen Told (call scale junk fuel (fun _ => a) callback n
      (.io ⟨true, false⟩) (l.logged n (.io ⟨true, false⟩))) _ :=
    call_matches (h.good.logged n (.io ⟨true, false⟩)) ha hreg rfl
  refine ⟨(wakeOne l n, fun _ => a), ⟨hfits, fun _ => ha⟩, ?_⟩
  cases turn_one hr hin hok h (fun _ => ha) hb hcb hfits with
  | returns hstep hmid =>
    obtain ⟨mid, hmid, hserver⟩ := hmid
    obtain ⟨s', hs', -, hseen⟩ := hmatches.comesTo.of_ok hmid
    exact .returns hstep hs' (hserver.trans hseen.symm)
  | fails hstep hrun =>
    obtain ⟨stop, hstop, htold⟩ := hmatches.comesTo.of_error hrun
    exact .fails hstep hstop htold

/-- **The process on picoev.** What a turn does at a state of a run, the process
does from what is seen there, callback by callback in the order they are
called; and what the process may do next, a turn does. -/
theorem turn_simulates (hr : Server.InRange listenSock) (hin : Server.InSet listenSock)
    (h₀ : start listenSock time = .ok l₀) (h : Reachable (canvasback scale junk fuel) l₀ l) :
    (∀ wake answers, (canvasback scale junk fuel).enabled l (wake, answers) →
      ComesTo ((canvasback scale junk fuel).step l (wake, answers))
        (Done scale junk fuel wake answers l) (Breaks scale junk fuel wake answers l)) ∧
    ∀ m, (process scale junk fuel).enabled (serverOf l) m →
      ∃ turn, (canvasback scale junk fuel).enabled l turn ∧
        Matches (fun l' s' => serverOf l' = s') Told ((canvasback scale junk fuel).step l turn)
          ((process scale junk fuel).step (serverOf l) m) := by
  obtain ⟨hok, halong⟩ := along_of_reachable hr hin h₀ h
  exact ⟨fun _ _ he => turn_answered hr hin hok halong he,
    fun _ he => moment_turn hr hin hok halong he⟩

/-- **The server on picoev.** The states of the process are what is seen of the
states the loop comes to. -/
theorem seen_iff (hr : Server.InRange listenSock) (hin : Server.InSet listenSock)
    (h₀ : start listenSock time = .ok l₀) :
    (∃ l, Reachable (canvasback scale junk fuel) l₀ l ∧ serverOf l = s) ↔
      Reachable (process scale junk fuel) (Server.init listenSock) s := by
  constructor
  · rintro ⟨l, h, rfl⟩
    exact (along_of_reachable hr hin h₀ h).2.reachable
  · intro h
    induction h with
    | refl =>
      obtain ⟨-, ⟨-, hseen₀⟩, -⟩ := start_ok h₀
      exact ⟨l₀, .refl, hseen₀.symm⟩
    | step _ he hs ih =>
      obtain ⟨l, hl, rfl⟩ := ih
      obtain ⟨hok, halong⟩ := along_of_reachable hr hin h₀ hl
      obtain ⟨turn, henabled, hturn⟩ := moment_turn hr hin hok halong he
      obtain ⟨l', hrun, hs'⟩ := hturn.returned hs
      exact ⟨l', hl.step henabled hrun, hs'⟩

end

-- ---------------------------------------------------------------------------
-- A first connection
-- ---------------------------------------------------------------------------

theorem start_three : ∃ l₀, start 3 1000 = .ok l₀ := ⟨_, rfl⟩

/-- The process a connection comes to. -/
theorem accept_moment :
    (process (fun _ _ _ => 0) (fun _ => 0) 1).enabled (.init 3) ⟨.accept 5, false⟩ ∧
    (process (fun _ _ _ => 0) (fun _ => 0) 1).step (.init 3) ⟨.accept 5, false⟩ = .ok oneConn := by
  have hgone : (⟨.accept 5, false⟩ : Moment).gone = true → (Server.init 3).wrote oneConn = false :=
    Bool.noConfusion
  exact ⟨⟨init_accept_enabled, show Server.InSet 5 by decide⟩,
    Server.happens_ok init_accept hgone fun hb => absurd hb.2 (by decide)⟩

theorem seen_iff_oneConn : ∃ l₀ l, start 3 1000 = .ok l₀ ∧
    Reachable (canvasback (fun _ _ _ => 0) (fun _ => 0) 1) l₀ l ∧ serverOf l = oneConn := by
  obtain ⟨l₀, h₀⟩ := start_three
  obtain ⟨henabled, hstep⟩ := accept_moment
  have hreachable : Reachable (process (fun _ _ _ => 0) (fun _ => 0) 1) (.init 3) oneConn :=
    Reachable.refl.step henabled hstep
  obtain ⟨l, hl, hs⟩ := (seen_iff (by decide) (by decide) h₀).mpr hreachable
  exact ⟨l₀, l, h₀, hl, hs⟩

def half : Moment := ⟨.readable 5 (.data (ascii "GET /tms,3,")) [] (newDb 6), false⟩

theorem half_moment : (process (fun _ _ _ => 0) (fun _ => 0) 1).enabled oneConn half ∧
    (process (fun _ _ _ => 0) (fun _ => 0) 1).step oneConn half = .error .abort := by
  have hverdict : (Read.data (ascii "GET /tms,3,")).verdict [] = .abort := by decide +kernel
  have habort : oneConn.step (fun _ _ _ => 0) (fun _ => 0) 1 half.event = .error .abort :=
    (server_readable (fun _ _ _ => 0) (fun _ => 0) 1 oneConn 5 _ [] (newDb 6)).trans
      (Server.readCb_abort hverdict)
  refine ⟨⟨⟨⟨0, rfl⟩, rfl, ⟨by decide, by decide⟩, fun _ _ => ⟨by decide, rfl⟩⟩,
    show Server.InSet 6 by decide⟩, ?_⟩
  show oneConn.step _ _ _ half.event >>= _ = _
  rw [habort]
  rfl

/-- A connection comes in one turn, and the turn with half a request ends it
all. -/
theorem turn_simulates_half : ∃ l₀ l turn, start 3 1000 = .ok l₀ ∧
    Reachable (canvasback (fun _ _ _ => 0) (fun _ => 0) 1) l₀ l ∧ serverOf l = oneConn ∧
    (canvasback (fun _ _ _ => 0) (fun _ => 0) 1).enabled l turn ∧
    (canvasback (fun _ _ _ => 0) (fun _ => 0) 1).step l turn = .error .assertion := by
  obtain ⟨l₀, h₀⟩ := start_three
  obtain ⟨-, ⟨-, hseen₀⟩, -⟩ := start_ok h₀
  obtain ⟨henabled, hstep⟩ := accept_moment
  rw [hseen₀] at henabled hstep
  obtain ⟨first, hfirst, hmatches⟩ :=
    (turn_simulates (by decide) (by decide) h₀ .refl).2 ⟨.accept 5, false⟩ henabled
  obtain ⟨l, hrun, hl⟩ := hmatches.returned hstep
  have hreachable : Reachable (canvasback (fun _ _ _ => 0) (fun _ => 0) 1) l₀ l :=
    Reachable.refl.step hfirst hrun
  obtain ⟨hhalf, habort⟩ := half_moment
  rw [← hl] at hhalf habort
  obtain ⟨turn, hturn, hfails⟩ :=
    (turn_simulates (by decide) (by decide) h₀ hreachable).2 half hhalf
  cases hfails with
  | returns _ hok => cases hok.symm.trans habort
  | fails hx hy htold =>
    obtain rfl : Stop.abort = _ := Except.error.inj (habort.symm.trans hy)
    exact ⟨l₀, l, turn, h₀, hreachable, hl, hturn, hx.trans (congrArg Except.error htold)⟩

end Canvasback.OnPicoev
