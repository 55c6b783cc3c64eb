import Canvasback.Picoev.LoopOnce

/-!
# The loop on `epoll`

picoev_epoll.c, with `PICOEV_EPOLL_DEFER_DELETES` as it is set. The system is
told of a descriptor when events are asked for, not when it is unregistered:
what is left in its set goes when the descriptor is closed or asked for again,
or is taken out once something is reported for it.
-/

namespace Canvasback.Picoev

open Runs

/-- What the system has: the descriptors that are open, and the set of the
epoll descriptor. One that is closed is in the set no more. -/
structure Epoll where
  opened : Nat → Bool
  interest : Nat → Option Events

inductive Errno where
  | badf
  | exist
  | noent
  deriving DecidableEq, Repr

inductive EpollOp where
  | add
  | mod
  | del
  deriving DecidableEq, Repr

namespace Epoll

def blank : Epoll := ⟨fun _ => false, fun _ => none⟩

def put (k : Epoll) (fd : Nat) (events : Option Events) : Epoll :=
  { k with interest := Function.update k.interest fd events }

/-- `epoll_ctl`. -/
def ctl (k : Epoll) (op : EpollOp) (fd : Nat) (events : Events) : Except Errno Epoll :=
  if k.opened fd then
    match op, k.interest fd with
    | .add, none => .ok (k.put fd (some events))
    | .add, some _ => .error .exist
    | .mod, some _ => .ok (k.put fd (some events))
    | .del, some _ => .ok (k.put fd none)
    | _, none => .error .noent
  else .error .badf

def opens (k : Epoll) (fd : Nat) : Epoll :=
  { k with opened := Function.update k.opened fd true }

def closes (k : Epoll) (fd : Nat) : Epoll :=
  ⟨Function.update k.opened fd false, Function.update k.interest fd none⟩

/-- `EPOLL_CTL_DEL` whatever comes of it. -/
def forget (k : Epoll) (fd : Nat) : Epoll :=
  match k.ctl .del fd .none with
  | .ok k => k
  | .error _ => k

end Epoll

/-- The system's state and the program's. -/
structure Hosted (π : Type) where
  epoll : Epoll
  program : π

/-- `SET(op, 1)`. -/
def checked (x : Except Errno Epoll) : Except Fault Epoll := x.mapError fun _ => .assertion

/-- What `picoev_update_events_internal` has the system do. -/
def Update.tell (u : Update) (k : Epoll) (fd : Nat) : Except Fault Epoll :=
  match u with
  | .del => .ok k
  | _ =>
    if u.readWrite = .none then checked (k.ctl .del fd u.readWrite)
    else
      match k.ctl .mod fd u.readWrite with
      | .ok k => .ok k
      | .error errno =>
        if errno = .noent then checked (k.ctl .add fd u.readWrite) else .error .assertion

namespace Loop

section
variable {κ π : Type}

def onEpoll (l : Loop κ (Hosted π)) (k : Epoll) : Loop κ (Hosted π) :=
  { l with world := { l.world with epoll := k } }

end

end Loop

/-- `picoev_update_events_internal`. -/
def epoll {κ π : Type} : Backend κ (Hosted π) where
  update l fd u :=
    if l.Belongs fd then
      if u.readWrite = (l.fds fd).events then .ok l
      else do
        let k ← u.tell l.world.epoll fd
        .ok ((l.onEpoll k).setFd fd { l.fds fd with events := u.readWrite })
    else .error .assertion

namespace Loop

section
variable {κ π : Type}
  (call : κ → Nat → Revents → Loop κ (Hosted π) → Except Fault (Loop κ (Hosted π)))

/-- What `picoev_poll_once_internal` does with an event. -/
def serve (l : Loop κ (Hosted π)) (event : Nat × Events) : Except Fault (Loop κ (Hosted π)) :=
  if l.Belongs event.1 ∧ (l.fds event.1).events ≠ .none then
    if event.2 = .none then .ok l else l.callback call event.1 (.io event.2)
  else .ok (l.onEpoll (l.world.epoll.forget event.1))

/-- `picoev_poll_once_internal`, where `epoll_wait` returns these. -/
def serveAll (events : List (Nat × Events)) (l : Loop κ (Hosted π)) :
    Except Fault (Loop κ (Hosted π)) :=
  events.foldlM (serve call) l

end

-- ---------------------------------------------------------------------------
-- Programs
-- ---------------------------------------------------------------------------

section
variable {κ π α : Type}

/-- A program at work: it makes calls of one kind, with timeouts up to
`maxSecs`, opens and closes descriptors, and changes what is its own. The
number of a registered descriptor does not come again. -/
inductive Works (maxSecs : Int) (kind : Call κ → Prop) (l : Loop κ (Hosted π)) :
    Loop κ (Hosted π) → Prop
  | refl : Works maxSecs kind l l
  | call {c : Call κ} {mid next : Loop κ (Hosted π)} (h : Works maxSecs kind l mid) (hk : kind c)
      (ht : 0 ≤ c.timeout ∧ c.timeout ≤ maxSecs) (hr : c.run epoll mid = .ok next) :
      Works maxSecs kind l next
  | opens {mid : Loop κ (Hosted π)} (h : Works maxSecs kind l mid)
      (hnew : mid.world.epoll.opened fd = false) (hfree : ¬ mid.Belongs fd) :
      Works maxSecs kind l (mid.onEpoll (mid.world.epoll.opens fd))
  | closes {mid : Loop κ (Hosted π)} (h : Works maxSecs kind l mid) (fd : Nat) :
      Works maxSecs kind l (mid.onEpoll (mid.world.epoll.closes fd))
  | program {mid : Loop κ (Hosted π)} (h : Works maxSecs kind l mid) (p : π) :
      Works maxSecs kind l { mid with world := { mid.world with program := p } }

/-- What is registered is open. -/
def Settled (l : Loop κ (Hosted π)) : Prop := ∀ fd, l.Belongs fd → l.world.epoll.opened fd

/-- The callbacks of a program work, and leave nothing registered that they
have closed. -/
structure Careful (maxSecs : Int)
    (call : κ → Nat → Revents → Loop κ (Hosted π) → Except Fault (Loop κ (Hosted π))) : Prop where
  works : call handler fd revents l = .ok l' →
    Works maxSecs (fun c => revents = .timeout → c.About fd) l l'
  settled : call handler fd revents l = .ok l' → l.Core → l.Settled → l'.Settled

/-- The system watches for what is asked for. -/
structure Watched (l : Loop κ (Hosted π)) : Prop where
  asked : l.Belongs fd → l.world.epoll.opened fd → (l.fds fd).events ≠ .none →
    l.world.epoll.interest fd = some (l.fds fd).events
  opened : l.world.epoll.interest fd ≠ none → l.world.epoll.opened fd

/-- What a pass has called: descriptors that were reported, in their order, each
for what was; and each that was reported is called if it is registered and asks
for events when the pass comes to it. -/
structure Told (call : κ → Nat → Revents → Loop κ (Hosted π) → Except Fault (Loop κ (Hosted π)))
    (events : List (Nat × Events)) (l l' : Loop κ (Hosted π)) : Prop extends l.Stays l' where
  log : ∃ es, l'.log = l.log ++ es ∧
    (es.map fun e => (e.fd, e.revents)).Sublist (events.map fun e => (e.1, .io e.2)) ∧
    (∀ e ∈ es, e.revents ≠ .io .none ∧ e.time = l.now) ∧
    ∀ front event back, events = front ++ event :: back → event.2 ≠ .none →
      ∃ mid, serveAll call front l = .ok mid ∧
        (event.1 ∈ es.map Called.fd ↔ mid.Belongs event.1 ∧ (mid.fds event.1).events ≠ .none)

/-- What a pass has called, and cleared away. -/
structure Served (call : κ → Nat → Revents → Loop κ (Hosted π) → Except Fault (Loop κ (Hosted π)))
    (events : List (Nat × Events)) (l l' : Loop κ (Hosted π)) : Prop extends
    Told call events l l' where
  /-- What was reported to nobody is not reported again. -/
  swept : l'.log = l.log → ∀ e ∈ events, e.2 ≠ .none → l'.world.epoll.interest e.1 = none

/-- The turn calls this callback, with this, in this state. -/
inductive Calls
    (call : κ → Nat → Revents → Loop κ (Hosted π) → Except Fault (Loop κ (Hosted π)))
    (maxWait : Int) (events : List (Nat × Events)) (wake : Wake (List (Nat × Events)))
    (l : Loop κ (Hosted π)) : κ → Nat → Revents → Loop κ (Hosted π) → Prop
  | event {front back : List (Nat × Events)} {event : Nat × Events} {handler : κ}
      {mid : Loop κ (Hosted π)} (hevents : events = front ++ event :: back)
      (hmid : serveAll call front (l.tick wake.before) = .ok mid) (hb : mid.Belongs event.1)
      (hasks : (mid.fds event.1).events ≠ .none) (hsome : event.2 ≠ .none)
      (hc : (mid.fds event.1).callback = some handler) :
      Calls call maxWait events wake l handler event.1 (.io event.2)
        (mid.logged event.1 (.io event.2))
  | timeout {fd : Nat} {handler : κ} {mid s : Loop κ (Hosted π)}
      (hmid : serveAll call events (l.tick wake.before) = .ok mid)
      (hs : (mid.tick (wake.last maxWait)).Expires call fd s) (hf : s.Firing fd handler) :
      Calls call maxWait events wake l handler fd .timeout (s.taken fd)

/-- A callback fails that the turn calls. -/
def Fails (call : κ → Nat → Revents → Loop κ (Hosted π) → Except Fault (Loop κ (Hosted π)))
    (maxWait : Int) (events : List (Nat × Events)) (wake : Wake (List (Nat × Events)))
    (l : Loop κ (Hosted π)) (e : Fault) : Prop :=
  ∃ handler fd revents s, Calls call maxWait events wake l handler fd revents s ∧
    call handler fd revents s = .error e

variable {l l' : Loop κ (Hosted π)} {fd d : Nat} {u : Update} {k k' : Epoll} {secs maxSecs : Int}

-- ---------------------------------------------------------------------------
-- The system
-- ---------------------------------------------------------------------------

@[simp] theorem put_interest (events : Option Events) :
    (k.put fd events).interest d = if d = fd then events else k.interest d :=
  Function.update_apply ..

theorem ctl_add {events : Events} (ho : k.opened fd) (hk : k.interest fd = none) :
    k.ctl .add fd events = .ok (k.put fd (some events)) := by
  unfold Epoll.ctl
  rw [if_pos ho, hk]

theorem ctl_mod {events : Events} (ho : k.opened fd) : k.ctl .mod fd events =
    if k.interest fd = none then .error .noent else .ok (k.put fd (some events)) := by
  unfold Epoll.ctl
  rw [if_pos ho]
  cases k.interest fd <;> rfl

theorem ctl_del {events : Events} (ho : k.opened fd) : k.ctl .del fd events =
    if k.interest fd = none then .error .noent else .ok (k.put fd none) := by
  unfold Epoll.ctl
  rw [if_pos ho]
  cases k.interest fd <;> rfl

theorem ctl_closed {events : Events} {op : EpollOp} (ho : ¬ k.opened fd) :
    k.ctl op fd events = .error .badf := if_neg ho

/-- What is asked for of an open descriptor gets into the set, whatever was
there. -/
theorem tell_open (ho : k.opened fd) (hu : u.readWrite ≠ .none) :
    u.tell k fd = .ok (k.put fd (some u.readWrite)) := by
  have hset : (match k.ctl .mod fd u.readWrite with
      | .ok k => .ok k
      | .error errno =>
        if errno = .noent then checked (k.ctl .add fd u.readWrite) else .error .assertion) =
      Except.ok (k.put fd (some u.readWrite)) := by
    rw [ctl_mod ho]
    by_cases hk : k.interest fd = none
    · rw [if_pos hk, ctl_add ho hk]
      rfl
    · rw [if_neg hk]
  cases u with
  | del => exact absurd rfl hu
  | add events => exact (if_neg hu).trans hset
  | set events => exact (if_neg hu).trans hset

/-- And out of it when nothing is. -/
theorem tell_nothing (ho : k.opened fd) (hk : k.interest fd ≠ none) (hu : u.readWrite = .none)
    (hdel : u ≠ .del) : u.tell k fd = .ok (k.put fd none) := by
  have hset : checked (k.ctl .del fd u.readWrite) = .ok (k.put fd none) := by
    rw [ctl_del ho, if_neg hk]
    rfl
  cases u with
  | del => exact absurd rfl hdel
  | add events => exact (if_pos hu).trans hset
  | set events => exact (if_pos hu).trans hset

theorem tell_closed (ho : ¬ k.opened fd) (hdel : u ≠ .del) : u.tell k fd = .error .assertion := by
  cases u with
  | del => exact absurd rfl hdel
  | add events | set events =>
    simp only [Update.tell, ctl_closed ho, checked]
    split <;> rfl

theorem tell_missing (ho : k.opened fd) (hk : k.interest fd = none) (hu : u.readWrite = .none)
    (hdel : u ≠ .del) : u.tell k fd = .error .assertion := by
  have hset : checked (k.ctl .del fd u.readWrite) = .error .assertion := by
    rw [ctl_del ho, if_pos hk]
    rfl
  cases u with
  | del => exact absurd rfl hdel
  | add events => exact (if_pos hu).trans hset
  | set events => exact (if_pos hu).trans hset

/-- Either it is left to be done later, or it is as asked for. -/
theorem tell_inv (h : u.tell k fd = .ok k') : u = .del ∧ k' = k ∨
    k.opened fd ∧ k' = k.put fd (if u.readWrite = .none then none else some u.readWrite) := by
  by_cases hdel : u = .del
  · subst hdel
    cases h
    exact .inl ⟨rfl, rfl⟩
  · right
    by_cases ho : k.opened fd
    · refine ⟨ho, ?_⟩
      by_cases hu : u.readWrite = .none
      · by_cases hk : k.interest fd = none
        · cases (tell_missing ho hk hu hdel).symm.trans h
        · rw [if_pos hu]
          exact (Except.ok.inj ((tell_nothing ho hk hu hdel).symm.trans h)).symm
      · rw [if_neg hu]
        exact (Except.ok.inj ((tell_open ho hu).symm.trans h)).symm
    · cases (tell_closed ho hdel).symm.trans h

-- ---------------------------------------------------------------------------
-- Updates
-- ---------------------------------------------------------------------------

/-- What `picoev_update_events_internal` leaves. -/
theorem update_inv (h : epoll.update l fd u = .ok l') : l.Belongs fd ∧
    (u.readWrite = (l.fds fd).events ∧ l' = l ∨ ∃ k, u.tell l.world.epoll fd = .ok k ∧
      l' = (l.onEpoll k).setFd fd { l.fds fd with events := u.readWrite }) := by
  unfold epoll at h
  simp only at h
  split at h
  · rename_i hb
    refine ⟨hb, ?_⟩
    split at h
    · rename_i he
      cases h
      exact .inl ⟨he, rfl⟩
    · obtain ⟨k, hk, h⟩ := bind_eq_ok.mp h
      cases h
      exact .inr ⟨k, hk, rfl⟩
  · cases h

/-- Less is asked for than was. -/
theorem Watched.mono (h : l.Watched) (hk : l'.world.epoll = l.world.epoll)
    (hfds : ∀ d, l'.Belongs d → (l'.fds d).events ≠ .none →
      l.Belongs d ∧ (l'.fds d).events = (l.fds d).events) : l'.Watched := by
  refine ⟨fun {d} hb ho he => ?_, fun {d} hi => ?_⟩
  · obtain ⟨hb', he'⟩ := hfds d hb he
    rw [hk] at ho ⊢
    rw [he'] at he ⊢
    exact h.asked hb' ho he
  · rw [hk] at hi ⊢
    exact h.opened hi

theorem Watched.update (h : l.Watched) (hu : epoll.update l fd u = .ok l') : l'.Watched := by
  obtain ⟨hb, ⟨-, rfl⟩ | ⟨k, hk, rfl⟩⟩ := update_inv hu
  · exact h
  · have hfds (d : Nat) : (((l.onEpoll k).setFd fd
        { l.fds fd with events := u.readWrite }).fds d).events =
        if d = fd then u.readWrite else (l.fds d).events := by
      rw [setFd_fds]
      split <;> rfl
    have hbel {d : Nat} (hd : d ≠ fd) (hb : ((l.onEpoll k).setFd fd
        { l.fds fd with events := u.readWrite }).Belongs d) : l.Belongs d := by
      unfold Belongs at hb
      rw [setFd_fds, if_neg hd] at hb
      exact hb
    rcases tell_inv hk with ⟨rfl, rfl⟩ | ⟨ho, rfl⟩
    · refine h.mono rfl fun d hb he => ?_
      rw [hfds] at he ⊢
      have hd : d ≠ fd := by
        rintro rfl
        rw [if_pos rfl] at he
        exact he rfl
      rw [if_neg hd]
      exact ⟨hbel hd hb, rfl⟩
    · refine ⟨fun {d} hb hod he => ?_, fun {d} hi => ?_⟩
      · show (l.world.epoll.put fd _).interest d = _
        rw [hfds] at he ⊢
        rw [put_interest]
        split
        · rename_i hd
          rw [if_pos hd] at he
          rw [if_neg he]
        · rename_i hd
          rw [if_neg hd] at he
          exact h.asked (hbel hd hb) hod he
      · have hi : (l.world.epoll.put fd _).interest d ≠ none := hi
        rw [put_interest] at hi
        split at hi
        · rename_i hd
          exact hd ▸ ho
        · exact h.opened hi

theorem retimed_events : ((l.retimed fd secs).fds d).events = (l.fds d).events := by
  rw [retimed_fds]
  split
  · rename_i hd
    rw [hd]
    split <;> rfl
  · rfl

theorem Watched.retimed (h : l.Watched) (fd : Nat) (secs : Int) : (l.retimed fd secs).Watched := by
  refine h.mono (by rw [retimed_world]) fun d hb _ => ?_
  exact ⟨retimed_belongs.mp hb, retimed_events⟩

theorem Watched.entered (h : l.Watched) (fd : Nat) (callback : κ) :
    (l.entered fd callback).Watched := by
  refine h.mono rfl fun d hb he => ?_
  simp only [Loop.entered, setFd_fds] at he ⊢
  split at he
  · exact absurd rfl he
  · rename_i hd
    rw [if_neg hd]
    exact ⟨(entered_belongs.mp hb).resolve_left hd, rfl⟩

-- ---------------------------------------------------------------------------
-- Calls
-- ---------------------------------------------------------------------------

/-- Every call keeps the system watching. -/
theorem Call.watched {c : Call κ} (h : l.Watched) (hr : c.run epoll l = .ok l') : l'.Watched := by
  cases c with
  | add fd events secs callback =>
    obtain ⟨-, l₁, hu, -, rfl⟩ := add_ok hr
    exact ((h.entered fd callback).update hu).retimed fd secs
  | del fd =>
    obtain ⟨-, l₁, hu, ⟨-, hb₁⟩, rfl⟩ := del_ok hr
    refine ((h.update hu).retimed fd 0).mono rfl fun d hb _ => ?_
    simp only [left, setFd_fds]
    by_cases hd : d = fd
    · subst hd
      rw [if_pos rfl]
      exact ⟨retimed_belongs.mpr hb₁, rfl⟩
    · rw [if_neg hd]
      unfold Belongs left at hb
      rw [setFd_fds, if_neg hd] at hb
      exact ⟨hb, rfl⟩
  | setTimeout fd secs =>
    obtain ⟨-, rfl⟩ := setTimeout_ok.mp hr
    exact h.retimed fd secs
  | setEvents fd events =>
    have hr : l.setEvents epoll fd events = .ok l' := hr
    unfold Loop.setEvents at hr
    split at hr
    · split at hr
      · cases hr
        exact h
      · exact h.update hr
    · cases hr

variable {kind : Call κ → Prop}

theorem Works.acts (h : Works maxSecs kind l l') : Acts epoll maxSecs kind l l' := by
  induction h with
  | refl => exact .refl
  | call _ hk ht hr ih => exact .call ih hk ht hr
  | opens _ _ _ ih => exact .world ih _
  | closes _ _ ih => exact .world ih _
  | program _ _ ih => exact .world ih _

theorem Works.watched (h : Works maxSecs kind l l') (hl : l.Watched) : l'.Watched := by
  induction h with
  | refl => exact hl
  | call _ _ _ hr ih => exact Call.watched ih hr
  | @opens fd mid _ hnew hfree ih =>
    refine ⟨fun {d} hb ho he => ?_, fun {d} hi => ?_⟩
    · have hd : d ≠ fd := fun hd => hfree (hd ▸ hb)
      have ho : Function.update mid.world.epoll.opened fd true d := ho
      rw [Function.update_of_ne hd] at ho
      exact ih.asked hb ho he
    · show Function.update mid.world.epoll.opened fd true d
      have ho := ih.opened hi
      rw [Function.update_apply]
      split
      · rfl
      · exact ho
  | @closes mid _ fd ih =>
    refine ⟨fun {d} hb ho he => ?_, fun {d} hi => ?_⟩
    · have ho : Function.update mid.world.epoll.opened fd false d := ho
      show Function.update mid.world.epoll.interest fd none d = _
      rw [Function.update_apply] at ho ⊢
      split at ho
      · cases ho
      · rename_i hd
        rw [if_neg hd]
        exact ih.asked hb ho he
    · have hi : Function.update mid.world.epoll.interest fd none d ≠ none := hi
      show Function.update mid.world.epoll.opened fd false d
      rw [Function.update_apply] at hi ⊢
      split at hi
      · exact absurd rfl hi
      · rename_i hd
        rw [if_neg hd]
        exact ih.opened hi
  | program _ _ ih => exact ih.mono rfl fun _ hb _ => ⟨hb, rfl⟩

/-- What holds between callbacks. -/
structure Hosts (l : Loop κ (Hosted π)) : Prop where
  watched : l.Watched
  settled : l.Settled

theorem Hosts.congr (h : l.Hosts) (hid : l'.loopId = l.loopId)
    (hfds : ∀ d, (l'.fds d).loopId = (l.fds d).loopId ∧ (l'.fds d).events = (l.fds d).events)
    (hk : l'.world.epoll = l.world.epoll) : l'.Hosts := by
  have hbel (d : Nat) : l'.Belongs d ↔ l.Belongs d := by
    unfold Belongs
    rw [(hfds d).1, hid]
  refine ⟨h.watched.mono hk fun d hb _ => ⟨(hbel d).mp hb, (hfds d).2⟩, fun d hb => ?_⟩
  rw [hk]
  exact h.settled d ((hbel d).mp hb)

-- ---------------------------------------------------------------------------
-- A pass
-- ---------------------------------------------------------------------------

variable {call : κ → Nat → Revents → Loop κ (Hosted π) → Except Fault (Loop κ (Hosted π))}
  {events front back : List (Nat × Events)} {event : Nat × Events} {handler : κ}
  {revents : Revents} {maxWait : Int} {wake : Wake (List (Nat × Events))} {l₀ : Loop κ (Hosted π)}

theorem forget_eq (h : k.interest fd ≠ none → k.opened fd) : k.forget fd = k.put fd none := by
  unfold Epoll.forget
  by_cases hk : k.interest fd = none
  · have hput : k.put fd none = k := by
      unfold Epoll.put
      rw [Function.update_eq_self_iff.mpr hk.symm]
    rw [hput]
    by_cases ho : k.opened fd
    · rw [ctl_del ho, if_pos hk]
    · rw [ctl_closed ho]
  · rw [ctl_del (h hk), if_neg hk]

/-- What is not asked for may be forgotten. -/
theorem Hosts.forget (h : l.Hosts) (hn : ¬ (l.Belongs fd ∧ (l.fds fd).events ≠ .none)) :
    (l.onEpoll (l.world.epoll.forget fd)).Hosts := by
  rw [forget_eq h.watched.opened]
  refine ⟨⟨fun {d} hb ho he => ?_, fun {d} hi => ?_⟩, h.settled⟩
  · have hd : d ≠ fd := by
      rintro rfl
      exact hn ⟨hb, he⟩
    show (l.world.epoll.put fd none).interest d = _
    rw [put_interest, if_neg hd]
    exact h.watched.asked hb ho he
  · have hi : (l.world.epoll.put fd none).interest d ≠ none := hi
    rw [put_interest] at hi
    split at hi
    · exact absurd rfl hi
    · exact h.watched.opened hi

/-- What a callback leaves where it comes back. -/
theorem Careful.works_hosts (hm : Careful maxSecs call) (hc : l.Core) (h : l.Hosts)
    (hrun : call handler fd revents l = .ok l') :
    Works maxSecs (fun c => revents = .timeout → c.About fd) l l' ∧ l'.Hosts :=
  ⟨hm.works hrun, (hm.works hrun).watched h.watched, hm.settled hrun hc h.settled⟩

theorem Hosts.taken (h : l.Hosts) (fd : Nat) : (l.taken fd).Hosts := by
  refine h.congr rfl (fun d => ?_) rfl
  rw [taken_fds]
  split
  · rename_i hd
    exact ⟨by rw [hd], by rw [hd]⟩
  · exact ⟨rfl, rfl⟩

theorem Hosts.logged (h : l.Hosts) (fd : Nat) (revents : Revents) : (l.logged fd revents).Hosts :=
  h.congr rfl (fun _ => ⟨rfl, rfl⟩) rfl

theorem Hosts.tick (h : l.Hosts) (t : Int) : (l.tick t).Hosts :=
  h.congr rfl (fun _ => ⟨rfl, rfl⟩) rfl

theorem Hosts.offWheel : OffWheel (Hosts : Loop κ (Hosted π) → Prop) :=
  ⟨fun h => h.congr rfl (fun _ => ⟨rfl, rfl⟩) rfl,
    fun h => h.congr rfl (fun _ => ⟨rfl, rfl⟩) rfl, fun h => h.congr rfl (fun _ => ⟨rfl, rfl⟩) rfl⟩

theorem Served.refl (h : l.Ok) : Served call [] l l :=
  ⟨⟨.refl h, [], by simp, by simp, by simp, by simp⟩, fun _ _ he => absurd he List.not_mem_nil⟩

/-- An event of the events before, or the one that comes now. -/
theorem snoc_cases {α : Type} {front front' back : List α} {x x' : α}
    (h : front ++ [x] = front' ++ x' :: back) :
    front' = front ∧ x' = x ∨ ∃ back', front = front' ++ x' :: back' := by
  induction back using List.reverseRecOn with
  | nil =>
    obtain ⟨hfront, hx⟩ := List.append_inj' h rfl
    exact .inl ⟨hfront.symm, (List.cons.inj hx).1.symm⟩
  | append_singleton back y _ =>
    have h : front ++ [x] = (front' ++ x' :: back) ++ [y] := by
      rw [h, List.append_assoc, List.cons_append]
    exact .inr ⟨back, (List.append_inj' h rfl).1⟩

theorem fd_mem_of_sublist {es : List Called}
    (hsub : (es.map fun e => (e.fd, e.revents)).Sublist (front.map fun e => (e.1, .io e.2)))
    (hd : d ∈ es.map Called.fd) : d ∈ front.map Prod.fst := by
  obtain ⟨e, he, rfl⟩ := List.mem_map.mp hd
  obtain ⟨e', he', heq⟩ := List.mem_map.mp (hsub.subset (List.mem_map.mpr ⟨e, he, rfl⟩))
  exact List.mem_map.mpr ⟨e', he', congrArg Prod.fst heq⟩

/-- A report that nobody is called for. -/
theorem Told.skip (h : Told call front l l') (hnew : event.1 ∉ front.map Prod.fst)
    (hcomes : serveAll call front l = .ok l')
    (hn : event.2 = .none ∨ ¬ (l'.Belongs event.1 ∧ (l'.fds event.1).events ≠ .none)) :
    Told call (front ++ [event]) l l' := by
  obtain ⟨es, hlog, hsub, hall, hready⟩ := h.log
  refine { h with log := ⟨es, hlog, ?_, hall, fun front' event' back hsplit hsome => ?_⟩ }
  · rw [List.map_append]
    exact hsub.trans (List.sublist_append_left _ _)
  · rcases snoc_cases hsplit with ⟨rfl, rfl⟩ | ⟨back', hfront⟩
    · refine ⟨l', hcomes, fun hin => ?_, fun hb => absurd hb (hn.resolve_left hsome)⟩
      exact absurd (fd_mem_of_sublist hsub hin) hnew
    · exact hready front' event' back' hfront hsome

theorem Told.called (h : Told call front l l') (hnew : event.1 ∉ front.map Prod.fst)
    (hcomes : serveAll call front l = .ok l') (hne : event.2 ≠ .none)
    (hb : l'.Belongs event.1 ∧ (l'.fds event.1).events ≠ .none) (hstays : l.Stays l'')
    (hs : (l'.logged event.1 (.io event.2)).Same l'') : Told call (front ++ [event]) l l'' := by
  obtain ⟨es, hlog, hsub, hall, hready⟩ := h.log
  refine ⟨hstays, es ++ [⟨event.1, .io event.2, l'.now, (l'.fds event.1).deadline⟩], ?_, ?_,
    fun e he => ?_, fun front' event' back hsplit hsome => ?_⟩
  · rw [hs.log]
    show l'.log ++ _ = _
    rw [hlog, List.append_assoc]
  · rw [List.map_append, List.map_append]
    exact hsub.append (List.Sublist.refl _)
  · rcases List.mem_append.mp he with he | he
    · exact hall e he
    · obtain rfl := List.mem_singleton.mp he
      refine ⟨fun hio => hne ?_, h.now⟩
      injection hio
  · rw [List.map_append, List.mem_append]
    rcases snoc_cases hsplit with ⟨rfl, rfl⟩ | ⟨back', hfront⟩
    · exact ⟨l', hcomes, fun _ => hb, fun _ => .inr (List.mem_singleton.mpr rfl)⟩
    · obtain ⟨mid, hmid, hiff⟩ := hready front' event' back' hfront hsome
      refine ⟨mid, hmid, ?_⟩
      rw [← hiff, or_iff_left]
      intro hin
      have heq : event'.1 = event.1 := List.mem_singleton.mp hin
      refine hnew (heq ▸ List.mem_map.mpr ⟨event', ?_, rfl⟩)
      rw [hfront]
      exact List.mem_append_right _ List.mem_cons_self

/-- Of the callbacks of timeouts: what they leave, and whose fault it is. -/
theorem Careful.keepsTime (hm : Careful maxSecs call) {mid : Loop κ (Hosted π)}
    (hmid : serveAll call events (l.tick wake.before) = .ok mid) :
    KeepsTime epoll maxSecs call (mid.tick (wake.last maxWait)) Hosts
      (Fails call maxWait events wake l) := by
  have hkeeps : KeepsTime epoll maxSecs call (mid.tick (wake.last maxWait)) Hosts
      (TimeoutFails call (mid.tick (wake.last maxWait))) := by
    refine .of_ok Hosts.offWheel fun {fd handler s s'} hs hf hrun => ?_
    obtain ⟨hworks, hhosts⟩ := hm.works_hosts hf.taken_core (hs.taken fd) hrun
    exact ⟨hworks.acts.mono fun _ hc => hc rfl, hhosts⟩
  refine hkeeps.mono fun e he => ?_
  obtain ⟨s, fd, handler, hs, hf, hrun⟩ := he
  exact ⟨handler, fd, .timeout, _, .timeout hmid hs hf, hrun⟩

end

-- ---------------------------------------------------------------------------
-- A descriptor that is read from once
-- ---------------------------------------------------------------------------

end Loop

end Canvasback.Picoev
