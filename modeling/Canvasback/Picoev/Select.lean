import Canvasback.Picoev.LoopOnce

/-!
# The loop on `select`

picoev_select.c. In a pass a descriptor is called that was registered and asked
for when `select` was called, was found ready, and is registered still when its
turn comes.
-/

namespace Canvasback.Picoev

open Runs

/-- `picoev_update_events_internal`. -/
def select {κ ω : Type} : Backend κ ω where
  update l fd u := .ok (l.setFd fd { l.fds fd with events := u.readWrite })

namespace Loop

section
variable {κ ω : Type} (call : κ → Nat → Revents → Loop κ ω → Except Fault (Loop κ ω))

/-- What is left in the sets given to `select`. -/
def found (l : Loop κ ω) (ready : Nat → Events) (fd : Nat) : Events :=
  if l.Belongs fd then
    ⟨(l.fds fd).events.read && (ready fd).read, (l.fds fd).events.write && (ready fd).write⟩
  else .none

/-- `FD_SET` is called for descriptors only that have a bit. -/
def InSets (l : Loop κ ω) : Prop :=
  ∀ fd < l.maxFd, l.Belongs fd → (l.fds fd).events ≠ .none → fd < fdSetSize

instance (l : Loop κ ω) : Decidable l.InSets :=
  inferInstanceAs (Decidable (∀ fd < l.maxFd, _ → _ → _))

/-- The second loop of `picoev_poll_once_internal`, at `fd`; `FD_ISSET` looks
behind the end of a set for a descriptor that has no bit. -/
def dispatch (revents : Nat → Events) (l : Loop κ ω) (fd : Nat) : Except Fault (Loop κ ω) :=
  if l.Belongs fd then
    if fd < fdSetSize then
      if revents fd = .none then .ok l else l.callback call fd (.io (revents fd))
    else .error .badPointer
  else .ok l

/-- `picoev_poll_once_internal`, where `select` succeeds; it returns 0 if
nothing is left in the sets. -/
def pollOnce (ready : Nat → Events) (l : Loop κ ω) : Except Fault (Loop κ ω) :=
  if l.InSets then
    if ∀ fd < l.maxFd, l.found ready fd = .none then .ok l
    else (List.range l.maxFd).foldlM (dispatch call (l.found ready)) l
  else .error .badPointer

/-- `picoev_poll_once_internal`, where `select` fails. -/
def pollFailed (l : Loop κ ω) : Except Fault (Loop κ ω) :=
  if l.InSets then .ok l else .error .badPointer

/-- The pass comes to `fd` in this state. -/
def Comes (ready : Nat → Events) (l : Loop κ ω) (fd : Nat) (mid : Loop κ ω) : Prop :=
  (List.range fd).foldlM (dispatch call (l.found ready)) l = .ok mid

end

-- ---------------------------------------------------------------------------
-- Programs
-- ---------------------------------------------------------------------------

/-- An `fd_set` has a bit for a descriptor that is registered. -/
def Call.InSet {κ : Type} : Call κ → Prop
  | .add fd _ _ _ => fd < fdSetSize
  | _ => True

section
variable {κ ω α : Type}

/-- An `fd_set` has a bit for every registered descriptor. -/
def Narrow (l : Loop κ ω) : Prop := ∀ fd, l.Belongs fd → fd < fdSetSize

/-- The callbacks of a program come back from calls of picoev.h, with timeouts
of no more than `maxSecs` and for descriptors an `fd_set` has a bit for; when it
is for a timeout, of calls that end no other's. -/
structure Mannerly (backend : Backend κ ω) (maxSecs : Int)
    (call : κ → Nat → Revents → Loop κ ω → Except Fault (Loop κ ω)) : Prop where
  acts : call handler fd revents l = .ok l' →
    Acts backend maxSecs (fun c => (revents = .timeout → c.About fd) ∧ c.InSet) l l'

/-- What is known of the callbacks in a pass from `l` on: they keep `I` and
fail as `E` says. -/
structure Serves (backend : Backend κ ω) (maxSecs : Int)
    (call : κ → Nat → Revents → Loop κ ω → Except Fault (Loop κ ω)) (ready : Nat → Events)
    (l : Loop κ ω) (I : Loop κ ω → Prop) (E : Fault → Prop) : Prop where
  narrow : I mid → mid.Narrow
  io : l.Comes call ready fd mid → I mid → l.found ready fd ≠ .none → mid.Belongs fd →
    (mid.fds fd).callback = some handler →
    ComesTo (call handler fd (.io (l.found ready fd)) (mid.logged fd (.io (l.found ready fd))))
      (fun l' => Acts backend maxSecs (fun _ => True)
        (mid.logged fd (.io (l.found ready fd))) l' ∧ I l') E

/-- What is true besides for a program on `select`; `l₀` is where the pass
began. -/
structure Keeps (backend : Backend κ ω) (maxSecs : Int)
    (call : κ → Nat → Revents → Loop κ ω → Except Fault (Loop κ ω)) (I : Loop κ ω → Prop)
    (E : Fault → Prop) : Prop extends OffWheel I where
  timeout : I l → l.Firing fd handler →
    ComesTo (call handler fd .timeout (l.taken fd))
      (fun l' => Acts backend maxSecs (Call.About fd) (l.taken fd) l' ∧ I l') E
  tick : t + maxSecs < l.baseTime + vecSize * l.resolution → I l → I (l.tick t)
  narrow : I l → l.Narrow
  io : I l₀ → l₀.found ready fd ≠ .none → I l → l.Belongs fd → (l.fds fd).callback = some handler →
    ComesTo (call handler fd (.io (l₀.found ready fd)) (l.logged fd (.io (l₀.found ready fd))))
      (fun l' => Acts backend maxSecs (fun _ => True)
        (l.logged fd (.io (l₀.found ready fd))) l' ∧ I l') E

/-- What a pass has called, of the descriptors below `n`: in order, once each,
for what `select` was asked for and found; and each that was found is called
unless it is not registered any more when the pass comes to it. -/
structure Polled (call : κ → Nat → Revents → Loop κ ω → Except Fault (Loop κ ω))
    (ready : Nat → Events) (n : Nat) (l l' : Loop κ ω) : Prop extends l.Stays l' where
  log : ∃ es, l'.log = l.log ++ es ∧ (es.map Called.fd).Pairwise (· < ·) ∧
    (∀ e ∈ es, e.fd < n ∧ l.found ready e.fd ≠ .none ∧
      e.revents = .io (l.found ready e.fd) ∧ e.time = l.now) ∧
    ∀ fd < n, l.found ready fd ≠ .none →
      ∃ mid, l.Comes call ready fd mid ∧ (fd ∈ es.map Called.fd ↔ mid.Belongs fd)

/-- A turn of the loop: a pass, and the timeouts. -/
def Turned (call : κ → Nat → Revents → Loop κ ω → Except Fault (Loop κ ω)) (maxWait : Int)
    (ready : Nat → Events) (wake : Wake (Nat → Events)) (l l' : Loop κ ω) : Prop :=
  ∃ mid, Polled call ready l.maxFd (l.tick wake.before) mid ∧
    (mid.tick (wake.last maxWait)).Handled l'

/-- A callback fails that the turn calls: of a descriptor the pass comes to, or
of a timeout after the pass. -/
def CallFails (call : κ → Nat → Revents → Loop κ ω → Except Fault (Loop κ ω)) (maxWait : Int)
    (ready : Nat → Events) (wake : Wake (Nat → Events)) (l : Loop κ ω) (e : Fault) : Prop :=
  (∃ fd handler mid, (l.tick wake.before).Comes call ready fd mid ∧ mid.Belongs fd ∧
    (l.tick wake.before).found ready fd ≠ .none ∧ (mid.fds fd).callback = some handler ∧
    call handler fd (.io ((l.tick wake.before).found ready fd))
      (mid.logged fd (.io ((l.tick wake.before).found ready fd))) = .error e) ∨
  ∃ mid, (l.tick wake.before).pollOnce call ready = .ok mid ∧
    TimeoutFails call (mid.tick (wake.last maxWait)) e

variable {l l' : Loop κ ω} {ready : Nat → Events} {wake : Wake (Nat → Events)}
  {maxSecs maxWait t : Int} {call : κ → Nat → Revents → Loop κ ω → Except Fault (Loop κ ω)}
  {I : Loop κ ω → Prop} {E : Fault → Prop} {backend : Backend κ ω} {fd d : Nat}

theorem select_lawful : (select : Backend κ ω).Lawful := by
  refine ⟨fun {l fd u l'} h => ?_⟩
  obtain rfl := Except.ok.inj h
  refine ⟨⟨rfl, rfl, rfl, rfl, rfl, rfl, rfl⟩, fun {d} => ?_, fun {d} => ?_, fun {d} => ?_,
    fun {d} => ?_, rfl⟩
  all_goals
    rw [setFd_fds]
    split
    · rename_i hd
      rw [hd]
    · rfl

/-- What `picoev_add` leaves here. -/
def added (l : Loop κ ω) (fd : Nat) (events : Events) (secs : Int) (callback : κ) : Loop κ ω :=
  ((l.entered fd callback).setFd fd { (l.entered fd callback).fds fd with events }).retimed fd secs

theorem add_select {events : Events} {secs : Int} {callback : κ} (hmax : fd < l.maxFd)
    (hfree : (l.fds fd).loopId = 0) :
    l.add select fd events secs callback = .ok (l.added fd events secs callback) := by
  unfold add
  rw [if_pos ⟨hmax, hfree⟩]
  refine setTimeout_ok.mpr ⟨⟨hmax, ?_⟩, rfl⟩
  simp [Belongs, setFd]

theorem added_fds (l : Loop κ ω) (fd : Nat) (events : Events) (secs : Int) (callback : κ)
    (d : Nat) : (l.added fd events secs callback).fds d = if d = fd then
      ⟨some callback, l.loopId, events, if secs = 0 then unused else l.slotOf secs,
        (l.fds fd).backend, if secs = 0 then (l.fds fd).deadline else l.now + secs⟩
    else l.fds d := by
  rw [added, retimed_fds]
  split
  · split
    · simp [entered, *]
    · simp only [entered, setFd_fds, if_true]
      rfl
  · rename_i hd
    simp [entered, hd]

theorem added_same (l : Loop κ ω) (fd : Nat) (events : Events) (secs : Int) (callback : κ) :
    l.Same (l.added fd events secs callback) ∧
      (l.added fd events secs callback).world = l.world := by
  have hsame := retimed_same
    ((l.entered fd callback).setFd fd { (l.entered fd callback).fds fd with events }) fd secs
  refine ⟨⟨hsame.maxFd, hsame.loopId, hsame.baseIdx, hsame.baseTime, hsame.resolution, hsame.now,
    hsame.log⟩, ?_⟩
  rw [added, retimed_world]
  rfl

/-- What `picoev_del` leaves here. -/
def deleted (l : Loop κ ω) (fd : Nat) : Loop κ ω :=
  ((l.setFd fd { l.fds fd with events := .none }).retimed fd 0).left fd

theorem del_select (hmax : fd < l.maxFd) (hb : l.Belongs fd) :
    l.del select fd = .ok (l.deleted fd) := by
  have hb' : (l.setFd fd { l.fds fd with events := .none }).Belongs fd := by
    unfold Belongs
    rw [setFd_fds, if_pos rfl]
    exact hb
  unfold del
  rw [if_pos hmax]
  refine bind_eq_ok.mpr ⟨_, rfl, bind_eq_ok.mpr ⟨_, setTimeout_ok.mpr ⟨⟨hmax, hb'⟩, rfl⟩, rfl⟩⟩

theorem deleted_fds : (l.deleted fd).fds d = if d = fd then
    { l.fds fd with loopId := 0, events := .none, timeoutIdx := unused } else l.fds d := by
  simp only [deleted, left, setFd_fds, retimed_fds, if_true]
  split
  · rfl
  · rfl

theorem deleted_same : l.Same (l.deleted fd) ∧ (l.deleted fd).world = l.world := by
  have hsame := retimed_same (l.setFd fd { l.fds fd with events := .none }) fd 0
  refine ⟨⟨hsame.maxFd, hsame.loopId, hsame.baseIdx, hsame.baseTime, hsame.resolution, hsame.now,
    hsame.log⟩, ?_⟩
  show (l.setFd fd { l.fds fd with events := .none } |>.retimed fd 0).world = l.world
  rw [retimed_world]
  rfl

theorem Acts.narrow {kind : Call κ → Prop} (hb : backend.Lawful) (hk : ∀ c, kind c → c.InSet)
    (ha : Acts backend maxSecs kind l l') (h : l.Narrow) : l'.Narrow := by
  induction ha with
  | refl => exact h
  | call _ hkind _ hr ih =>
    intro fd hfd
    rcases Call.belongs hb hr hfd with hold | ⟨events, secs, callback, rfl⟩
    · exact ih fd hold
    · exact hk _ hkind
  | world _ w ih => exact ih

-- ---------------------------------------------------------------------------
-- A pass
-- ---------------------------------------------------------------------------

theorem Polled.refl (h : l.Ok) : Polled call ready 0 l l :=
  ⟨.refl h, ⟨[], by simp, by simp, by simp, by simp⟩⟩

/-- A descriptor is passed by: nothing was found, or it is not registered. -/
theorem Polled.skip (h : Polled call ready n l l')
    (hn : l.found ready n = .none ∨ l.Comes call ready n l' ∧ ¬ l'.Belongs n) :
    Polled call ready (n + 1) l l' := by
  obtain ⟨es, hlog, hasc, hall, hready⟩ := h.log
  refine { h with log := ⟨es, hlog, hasc, fun e he => ?_, fun fd hfd hf => ?_⟩ }
  · obtain ⟨hlt, hrest⟩ := hall e he
    exact ⟨by omega, hrest⟩
  · rcases Nat.lt_succ_iff_lt_or_eq.mp hfd with hlt | rfl
    · exact hready fd hlt hf
    · obtain ⟨hcomes, hgone⟩ := hn.resolve_left hf
      refine ⟨l', hcomes, fun hin => ?_, fun hb => absurd hb hgone⟩
      obtain ⟨e, he, hefd⟩ := List.mem_map.mp hin
      exact absurd (hall e he).1 (by omega)

theorem Polled.called (h : Polled call ready n l l') (hf : l.found ready n ≠ .none)
    (hcomes : l.Comes call ready n l') (hbel : l'.Belongs n) (hstays : l.Stays l'')
    (hs : (l'.logged n (.io (l.found ready n))).Same l'') : Polled call ready (n + 1) l l'' := by
  obtain ⟨es, hlog, hasc, hall, hready⟩ := h.log
  refine ⟨hstays, es ++ [⟨n, .io (l.found ready n), l'.now, (l'.fds n).deadline⟩], ?_, ?_,
    fun e he => ?_, fun fd hfd hfound => ?_⟩
  · rw [hs.log]
    show l'.log ++ _ = _
    rw [hlog, List.append_assoc]
  · rw [List.map_append, List.pairwise_append]
    refine ⟨hasc, by simp, fun a ha b hb => ?_⟩
    obtain ⟨e, he, rfl⟩ := List.mem_map.mp ha
    obtain rfl := List.mem_singleton.mp hb
    exact (hall e he).1
  · rcases List.mem_append.mp he with he | he
    · obtain ⟨hlt, hrest⟩ := hall e he
      exact ⟨by omega, hrest⟩
    · obtain rfl := List.mem_singleton.mp he
      exact ⟨Nat.lt_succ_self n, hf, rfl, h.now⟩
  · rw [List.map_append, List.mem_append]
    rcases Nat.lt_succ_iff_lt_or_eq.mp hfd with hlt | rfl
    · obtain ⟨mid, hmid, hiff⟩ := hready fd hlt hfound
      refine ⟨mid, hmid, ?_⟩
      rw [← hiff, or_iff_left]
      intro hin
      have heq : fd = n := List.mem_singleton.mp hin
      omega
    · exact ⟨l', hcomes, fun _ => hbel, fun _ => .inr (List.mem_singleton.mpr rfl)⟩

theorem dispatch_polled (hb : backend.Lawful) (hk : Serves backend maxSecs call ready l I E)
    (hin : l.now + maxSecs < l.baseTime + vecSize * l.resolution)
    (hcomes : l.Comes call ready n l') (h : Polled call ready n l l' ∧ I l') :
    ComesTo (dispatch call (l.found ready) l' n)
      (fun l'' => Polled call ready (n + 1) l l'' ∧ I l'') E := by
  obtain ⟨hp, hl'⟩ := h
  unfold dispatch
  split
  · rename_i hbel
    rw [if_pos (hk.narrow hl' n hbel)]
    split
    · rename_i hnone
      exact .ok ⟨hp.skip (.inl hnone), hl'⟩
    · rename_i hf
      obtain ⟨callback, hcb⟩ := Option.ne_none_iff_exists'.mp (hp.ok.callback hbel)
      have hrun : l'.callback call n (.io (l.found ready n)) =
          call callback n (.io (l.found ready n)) (l'.logged n (.io (l.found ready n))) := by
        rw [Loop.callback, hcb]
      rw [hrun]
      refine (hk.io hcomes hl' hf hbel hcb).mono (fun l'' h'' => ?_) fun _ he => he
      obtain ⟨hacts, hl''⟩ := h''
      obtain ⟨hstays, hsame⟩ := hp.toStays.acts hb hin hacts
      exact ⟨hp.called hf hcomes hbel hstays hsame, hl''⟩
  · rename_i hgone
    exact .ok ⟨hp.skip (.inr ⟨hcomes, hgone⟩), hl'⟩

theorem pollOnce_polled (hb : backend.Lawful) (hk : Serves backend maxSecs call ready l I E)
    (h : l.Ok) (hl : I l) (hin : l.now + maxSecs < l.baseTime + vecSize * l.resolution) :
    ComesTo (l.pollOnce call ready) (fun l' => Polled call ready l.maxFd l l' ∧ I l') E := by
  have hsets : l.InSets := fun fd _ hfd _ => hk.narrow hl fd hfd
  unfold pollOnce
  rw [if_pos hsets]
  split
  · rename_i hnone
    refine .ok ⟨⟨.refl h, [], by simp, by simp, by simp, fun fd hfd hf => ?_⟩, hl⟩
    exact absurd (hnone fd hfd) hf
  · exact ComesTo.foldlM_range (P := fun n l' => Polled call ready n l l' ∧ I l')
      (fun _ _ _ hcomes hl' => dispatch_polled hb hk hin hcomes hl') ⟨.refl h, hl⟩

theorem pollFailed_ok (h : l.Narrow) : pollFailed l = .ok l := if_pos fun fd _ hfd _ => h fd hfd

-- ---------------------------------------------------------------------------
-- A turn
-- ---------------------------------------------------------------------------

theorem Fits.pass (h : l.Fits maxSecs wake) :
    wake.before + maxSecs < l.baseTime + vecSize * l.resolution := by
  have := h.inWheel
  have := h.after
  omega

theorem Keeps.serves (hk : Keeps backend maxSecs call I E) (hl : I l) :
    Serves backend maxSecs call ready l I E :=
  ⟨hk.narrow, fun _ hmid hf hb hc => hk.io hl hf hmid hb hc⟩

theorem Keeps.keepsTime (hk : Keeps backend maxSecs call I E) (mid : Loop κ ω) :
    KeepsTime backend maxSecs call mid I E := ⟨hk.toOffWheel, fun _ => hk.timeout⟩

/-- A turn whose pass is served, and whose timeouts keep what the pass kept. -/
theorem loopOnce_served (hb : backend.Lawful)
    (hk : Serves backend maxSecs call ready (l.tick wake.before) I E)
    (htime : ∀ mid, KeepsTime backend maxSecs call mid I E)
    (htick : ∀ {mid : Loop κ ω} {t}, t + maxSecs < mid.baseTime + vecSize * mid.resolution →
      I mid → I (mid.tick t))
    (h : l.Ok) (hl : I l) (hw : l.Fits maxSecs wake) (hready : wake.ready = some ready) :
    ComesTo (loopOnce call maxWait pollFailed (pollOnce call) wake l)
      (fun l' => Turned call maxWait ready wake l l' ∧ I l') E := by
  have hpass := pollOnce_polled hb hk (h.tick hw.before) (htick hw.pass hl) hw.pass
  refine (loopOnce_handled (I := fun _ => I)
    (P := fun mid => Polled call ready l.maxFd (l.tick wake.before) mid ∧ I mid) hb h hw hready
    (hpass.mono (fun mid h => ⟨h.1.toStays, h⟩) fun _ he => he)
    fun mid hp => ⟨htime _, htick (hp.1.last maxWait hw).2 hp.2⟩).mono (fun l' h' => ?_) fun _ he => he
  obtain ⟨mid, hp, hh, hl'⟩ := h'
  exact ⟨⟨mid, hp.1, hh⟩, hl'⟩

/-- A turn of a program's loop, where `select` succeeds. -/
theorem loopOnce_turned (hb : backend.Lawful) (hk : Keeps backend maxSecs call I E) (h : l.Ok)
    (hl : I l) (hw : l.Fits maxSecs wake) (hready : wake.ready = some ready) :
    ComesTo (loopOnce call maxWait pollFailed (pollOnce call) wake l)
      (fun l' => Turned call maxWait ready wake l l' ∧ I l') E :=
  loopOnce_served hb (hk.serves (hk.tick hw.pass hl)) hk.keepsTime hk.tick h hl hw hready

/-- The state a callback is called in, and what it does where it comes back. -/
theorem Mannerly.narrow (hm : Mannerly backend maxSecs call) (hb : backend.Lawful)
    (h : l.Narrow) (hrun : call handler fd revents l = .ok l') :
    Acts backend maxSecs (fun c => revents = .timeout → c.About fd) l l' ∧ l'.Narrow :=
  ⟨(hm.acts hrun).mono fun _ hc => hc.1, (hm.acts hrun).narrow hb (fun _ hc => hc.2) h⟩

/-- A turn of any program's loop, where `select` succeeds. -/
theorem Mannerly.turn (hb : backend.Lawful) (hm : Mannerly backend maxSecs call) (h : l.Ok)
    (hl : l.Narrow) (hw : l.Fits maxSecs wake) (hready : wake.ready = some ready) :
    ComesTo (loopOnce call maxWait pollFailed (pollOnce call) wake l)
      (fun l' => Turned call maxWait ready wake l l' ∧ l'.Narrow)
      (CallFails call maxWait ready wake l) := by
  have hserves : Serves backend maxSecs call ready (l.tick wake.before) Narrow
      (CallFails call maxWait ready wake l) := by
    refine ⟨id, fun {fd mid handler} hcomes hmid hf hbel hc => ?_⟩
    cases hrun : call handler fd (.io ((l.tick wake.before).found ready fd))
        (mid.logged fd (.io ((l.tick wake.before).found ready fd))) with
    | error e => exact .error (.inl ⟨fd, handler, mid, hcomes, hbel, hf, hc, hrun⟩)
    | ok l' =>
      have hlogged : (mid.logged fd (.io ((l.tick wake.before).found ready fd))).Narrow := hmid
      obtain ⟨hacts, hnarrow⟩ := hm.narrow hb hlogged hrun
      exact .ok ⟨hacts.mono fun _ _ => trivial, hnarrow⟩
  have hpass := pollOnce_polled hb hserves (h.tick hw.before) hl hw.pass
  -- which state the pass leaves is kept for the timeouts
  have hpass' := hpass.and (R := fun mid => (l.tick wake.before).pollOnce call ready = .ok mid)
    fun mid hmid => hmid
  have htime (mid : Loop κ ω) : KeepsTime backend maxSecs call (mid.tick (wake.last maxWait))
      Narrow (TimeoutFails call (mid.tick (wake.last maxWait))) := by
    refine .of_ok ⟨id, id, id⟩ fun {fd handler s l'} hs hf hrun => ?_
    have htaken : (s.taken fd).Narrow := fun d hd => hs d (taken_belongs.mp hd)
    obtain ⟨hacts, hnarrow⟩ := hm.narrow hb htaken hrun
    exact ⟨hacts.mono fun _ hc => hc rfl, hnarrow⟩
  refine (loopOnce_handled (I := fun _ => Narrow)
    (P := fun mid => (l.tick wake.before).pollOnce call ready = .ok mid ∧
      Polled call ready l.maxFd (l.tick wake.before) mid ∧ mid.Narrow) hb h hw hready
    (hpass'.mono (fun mid h => ⟨h.2.1.toStays, h⟩) fun _ he => he)
    fun mid hp => ⟨(htime mid).mono fun e he => .inr ⟨mid, hp.1, he⟩, hp.2.2⟩).mono
      (fun l' h' => ?_) fun _ he => he
  obtain ⟨mid, hp, hh, hnarrow⟩ := h'
  exact ⟨⟨mid, hp.2.1, hh⟩, hnarrow⟩

-- ---------------------------------------------------------------------------
-- Runs
-- ---------------------------------------------------------------------------

/-- A program's loop; with each turn go the answers `call` works with, of those
the system may give. -/
def turns (may : α → Prop)
    (call : α → κ → Nat → Revents → Loop κ ω → Except Fault (Loop κ ω))
    (maxWait maxSecs : Int) : System (Loop κ ω) (Wake (Nat → Events) × α) Fault where
  enabled l e := l.Fits maxSecs e.1 ∧ may e.2
  step l e := loopOnce (call e.2) maxWait pollFailed (pollOnce (call e.2)) e.1 l

variable {may : α → Prop} {l₀ : Loop κ ω}

theorem turn_failed {call : α → κ → Nat → Revents → Loop κ ω → Except Fault (Loop κ ω)} {a : α}
    (h : l.Narrow) (hready : wake.ready = none) :
    (turns may call maxWait maxSecs).step l (wake, a) = .ok (l.tick wake.before) := by
  have hnarrow : (l.tick wake.before).Narrow := h
  show loopOnce (call a) maxWait pollFailed (pollOnce (call a)) wake l = _
  rw [loopOnce, hready]
  exact pollFailed_ok hnarrow

/-- What every turn keeps, with callbacks whose turns keep it. -/
theorem turns_invariant {call : α → κ → Nat → Revents → Loop κ ω → Except Fault (Loop κ ω)}
    (hnarrow : ∀ {l}, I l → l.Narrow)
    (htick : ∀ {l : Loop κ ω} {t}, t + maxSecs < l.baseTime + vecSize * l.resolution → I l →
      I (l.tick t))
    (hturn : ∀ {l a wake ready}, may a → l.Ok → I l → l.Fits maxSecs wake →
      wake.ready = some ready → ∀ {l'},
      loopOnce (call a) maxWait pollFailed (pollOnce (call a)) wake l = .ok l' →
        Turned (call a) maxWait ready wake l l' ∧ I l')
    (h₀ : l₀.Ok) (hl₀ : I l₀)
    (h : Reachable (turns may call maxWait maxSecs) l₀ l) : l.Ok ∧ I l := by
  have hstep (l : Loop κ ω) (e : Wake (Nat → Events) × α) (l' : Loop κ ω) (hinv : l.Ok ∧ I l)
      (he : l.Fits maxSecs e.1 ∧ may e.2)
      (hrun : (turns may call maxWait maxSecs).step l e = .ok l') : l'.Ok ∧ I l' := by
    obtain ⟨wake, a⟩ := e
    cases hready : wake.ready with
    | none =>
      rw [turn_failed (hnarrow hinv.2) hready, Except.ok.injEq] at hrun
      subst hrun
      exact ⟨hinv.1.tick he.1.before, htick he.1.pass hinv.2⟩
    | some ready =>
      obtain ⟨⟨mid, hp, hh⟩, hl'⟩ := hturn he.2 hinv.1 hinv.2 he.1 hready hrun
      exact ⟨hh.ok, hl'⟩
  exact @Reachable.invariant _ _ _ _ (fun l => l.Ok ∧ I l) _ _ h ⟨h₀, hl₀⟩ hstep

theorem Keeps.invariant {call : α → κ → Nat → Revents → Loop κ ω → Except Fault (Loop κ ω)}
    (hb : backend.Lawful) (hk : ∀ a, may a → Keeps backend maxSecs (call a) I E)
    (hnarrow : ∀ {l}, I l → l.Narrow)
    (htick : ∀ {l : Loop κ ω} {t}, t + maxSecs < l.baseTime + vecSize * l.resolution → I l →
      I (l.tick t))
    (h₀ : l₀.Ok) (hl₀ : I l₀) (h : Reachable (turns may call maxWait maxSecs) l₀ l) :
    l.Ok ∧ I l :=
  turns_invariant hnarrow htick (fun ha hok hl hw hready _ hrun =>
    (loopOnce_turned hb (hk _ ha) hok hl hw hready).of_ok hrun) h₀ hl₀ h

end

end Loop

end Canvasback.Picoev
