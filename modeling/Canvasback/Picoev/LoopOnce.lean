import Canvasback.Picoev.Calls

/-!
# A turn of the loop

`picoev_loop_once`, whatever the backend: a pass, and then the timeouts that
are due by the clock after it.
-/

namespace Canvasback.Picoev

/-- A turn of the loop as the environment has it: the clock before the pass,
what there is to report unless the pass fails, the clock after it. -/
structure Wake (σ : Type) where
  before : Int
  ready : Option σ
  after : Int

/-- The clock timeouts are handled by. -/
def Wake.last {σ : Type} (maxWait : Int) (wake : Wake σ) : Int :=
  if maxWait = 0 then wake.before else wake.after

namespace Loop

section
variable {κ ω σ : Type}

def tick (l : Loop κ ω) (t : Int) : Loop κ ω := { l with now := t }

/-- `picoev_loop_once`; `picoev_poll_once_internal` is `poll`, and where it
fails `failed`. A slot takes a second at least, so there are not more turns
than seconds. -/
def loopOnce (call : κ → Nat → Revents → Loop κ ω → Except Fault (Loop κ ω)) (maxWait : Int)
    (failed : Loop κ ω → Except Fault (Loop κ ω))
    (poll : σ → Loop κ ω → Except Fault (Loop κ ω)) (wake : Wake σ) (l : Loop κ ω) :
    Except Fault (Loop κ ω) :=
  let l := l.tick wake.before
  let maxWait := if l.resolution < maxWait then l.resolution else maxWait
  match wake.ready with
  | .none => failed l
  | some ready => do
    let l ← poll ready l
    let l := if maxWait ≠ 0 then l.tick wake.after else l
    handleTimeout call (l.now - l.baseTime).toNat l

/-- What is true besides for a program while timeouts are handled from `l₀` on:
where `I` holds the callbacks called make calls of picoev.h with timeouts of no
more than `maxSecs`, end no other's timeouts, keep `I`, and fail as `E` says. -/
structure KeepsTime (backend : Backend κ ω) (maxSecs : Int)
    (call : κ → Nat → Revents → Loop κ ω → Except Fault (Loop κ ω)) (l₀ : Loop κ ω)
    (I : Loop κ ω → Prop) (E : Fault → Prop) : Prop extends OffWheel I where
  timeout : l₀.Expires call fd l → I l → l.Firing fd handler →
    ComesTo (call handler fd .timeout (l.taken fd))
      (fun l' => Acts backend maxSecs (Call.About fd) (l.taken fd) l' ∧ I l') E

/-- The clock does not go back, and the wheel is not left behind so far that
a timeout does not find its place in it. -/
structure Fits (l : Loop κ ω) (maxSecs : Int) (wake : Wake σ) : Prop where
  before : l.now ≤ wake.before
  after : wake.before ≤ wake.after
  inWheel : wake.after + maxSecs < l.baseTime + vecSize * l.resolution

/-- The same clock and wheel, at work. -/
structure Stays (l l' : Loop κ ω) : Prop where
  ok : l'.Ok
  maxFd : l'.maxFd = l.maxFd
  loopId : l'.loopId = l.loopId
  baseIdx : l'.baseIdx = l.baseIdx
  baseTime : l'.baseTime = l.baseTime
  resolution : l'.resolution = l.resolution
  now : l'.now = l.now

variable {l₀ l l' : Loop κ ω} {wake : Wake σ} {maxSecs maxWait t : Int}
  {call : κ → Nat → Revents → Loop κ ω → Except Fault (Loop κ ω)} {I P : Loop κ ω → Prop}
  {E : Fault → Prop} {backend : Backend κ ω} {fd : Nat} {handler : κ}

-- ---------------------------------------------------------------------------
-- The clock
-- ---------------------------------------------------------------------------

theorem Ok.tick (h : l.Ok) (ht : l.now ≤ t) : (l.tick t).Ok := by
  have htime := h.time
  refine ⟨⟨h.loopId, h.base, h.resolution, ?_, h.range, h.idx, h.callback, h.window, h.log⟩,
    fun slot hs => (h.slots slot hs).congr rfl fun _ => Iff.rfl⟩
  show l.baseTime ≤ t
  omega

theorem Ok.logged (h : l.Ok) (events : Events) : (l.logged fd (.io events)).Ok := by
  refine ⟨⟨h.loopId, h.base, h.resolution, h.time, h.range, h.idx, h.callback, h.window,
    fun e he hr => ?_⟩, fun slot hs => (h.slots slot hs).congr rfl fun _ => Iff.rfl⟩
  rcases List.mem_append.mp he with he | he
  · exact h.log e he hr
  · obtain rfl := List.mem_singleton.mp he
    cases hr

theorem create_belongs {maxFd maxTimeout : Nat} {time : Int} {world : ω} (fd : Nat) :
    ¬ (create maxFd maxTimeout time world : Loop κ ω).Belongs fd := by
  intro hb
  cases hb

theorem create_ok {maxFd maxTimeout : Nat} {time : Int} {world : ω} (h : 0 < maxTimeout) :
    (create maxFd maxTimeout time world : Loop κ ω).Ok := by
  refine ⟨⟨by simp [create], Nat.zero_lt_succ _, ?_, le_rfl, fun hb => absurd hb (create_belongs _),
    fun hb => absurd hb (create_belongs _), fun hb => absurd hb (create_belongs _),
    fun ha => absurd ha.1 (create_belongs _),
    by simp [create]⟩, fun slot _ => ⟨.empty, fun fd => ?_⟩⟩
  · show (0 : Int) < ((rndUp maxTimeout vecSize / vecSize : Nat) : Int)
    simp only [rndUp, vecSize]
    omega
  · exact ⟨fun hm => absurd hm TwoLevel.Rows.not_mem_empty,
      fun ha => absurd ha.1 (create_belongs fd)⟩

theorem Stays.refl (h : l.Ok) : l.Stays l := ⟨h, rfl, rfl, rfl, rfl, rfl, rfl⟩

/-- A callback called for events, and calls of picoev.h from it. -/
theorem Stays.acts {kind : Call κ → Prop} {events : Events} (hb : backend.Lawful)
    (h : l₀.Stays l) (hin : l₀.now + maxSecs < l₀.baseTime + vecSize * l₀.resolution)
    (ha : Acts backend maxSecs kind (l.logged fd (.io events)) l') :
    l₀.Stays l' ∧ (l.logged fd (.io events)).Same l' := by
  have hclock : l.now + maxSecs < l.baseTime + vecSize * l.resolution := by
    rw [h.now, h.baseTime, h.resolution]
    exact hin
  obtain ⟨hok, hs⟩ := ha.ok hb (h.ok.logged events) hclock
  exact ⟨⟨hok, hs.maxFd.trans h.maxFd, hs.loopId.trans h.loopId, hs.baseIdx.trans h.baseIdx,
    hs.baseTime.trans h.baseTime, hs.resolution.trans h.resolution, hs.now.trans h.now⟩, hs⟩

theorem last_le (maxWait : Int) (hw : l.Fits maxSecs wake) :
    wake.before ≤ wake.last maxWait ∧ wake.last maxWait ≤ wake.after := by
  have := hw.after
  unfold Wake.last
  split <;> omega

-- ---------------------------------------------------------------------------
-- Timeouts of programs
-- ---------------------------------------------------------------------------

/-- A callback called for a timeout is polite. -/
theorem Firing.polite (h : l.Firing fd handler) (hb : backend.Lawful)
    (hin : l.now + maxSecs < l.baseTime + vecSize * l.resolution)
    (ha : Acts backend maxSecs (Call.About fd) (l.taken fd) l') : (l.taken fd).Polite fd l' := by
  have hbase := h.core.base
  have hidle : ((l.taken fd).fds fd).timeoutIdx ≠ l.baseIdx := by
    rw [taken_fds, if_pos rfl]
    simp only [vecSize, unused] at *
    omega
  exact (ha.polite hb h.taken_core h.time hidle hin).1

/-- What there is of the wheel is enough for their timeouts. -/
theorem KeepsTime.considerate (hb : backend.Lawful) (hk : KeepsTime backend maxSecs call l₀ I E) :
    Considerate call l₀ (fun l => I l ∧ 0 < l.resolution ∧
      l.now + maxSecs < l.baseTime + vecSize * l.resolution) E := by
  rintro handler fd l hx ⟨hl, hres, hin⟩ hf
  refine (hk.timeout hx hl hf).mono (fun l' ⟨hacts, hl'⟩ => ?_) fun _ he => he
  have hp := hf.polite hb hin hacts
  refine ⟨hp, hl', ?_, ?_⟩
  · rw [hp.resolution]
    exact hres
  · rw [hp.now, hp.baseTime, hp.resolution]
    exact hin

theorem OffWheel.inWheel : OffWheel fun l : Loop κ ω =>
    0 < l.resolution ∧ l.now + maxSecs < l.baseTime + vecSize * l.resolution := by
  refine ⟨id, id, fun {l} ⟨hres, hin⟩ => ⟨hres, ?_⟩⟩
  show l.now + maxSecs < l.baseTime + l.resolution + vecSize * l.resolution
  linarith

/-- What is kept holds where a timeout comes up. -/
theorem KeepsTime.keeps (hb : backend.Lawful) (hk : KeepsTime backend maxSecs call l₀ I E)
    (h : l₀.Ok) (hl : I l₀) (hin : l₀.now + maxSecs < l₀.baseTime + vecSize * l₀.resolution)
    (hx : l₀.Expires call fd l) : I l :=
  (hx.keeps (hk.toOffWheel.and .inWheel) (hk.considerate hb) h ⟨hl, h.resolution, hin⟩).1

/-- Callbacks of which it is known what they do where they come back. -/
theorem KeepsTime.of_ok (hI : OffWheel I)
    (hcall : ∀ {fd handler mid l'}, I mid → mid.Firing fd handler →
      call handler fd .timeout (mid.taken fd) = .ok l' →
        Acts backend maxSecs (Call.About fd) (mid.taken fd) l' ∧ I l') :
    KeepsTime backend maxSecs call l I (TimeoutFails call l) := by
  refine ⟨hI, fun {fd mid handler} hx hmid hf => ?_⟩
  cases hrun : call handler fd .timeout (mid.taken fd) with
  | error e => exact .error ⟨mid, fd, handler, hx, hf, hrun⟩
  | ok l' => exact .ok (hcall hmid hf hrun)

theorem KeepsTime.mono {E' : Fault → Prop} (h : KeepsTime backend maxSecs call l I E)
    (hE : ∀ e, E e → E' e) : KeepsTime backend maxSecs call l I E' :=
  ⟨h.toOffWheel, fun hx hl hf => (h.timeout hx hl hf).mono (fun _ h => h) hE⟩

-- ---------------------------------------------------------------------------
-- A turn
-- ---------------------------------------------------------------------------

/-- The clock after a pass. -/
theorem Stays.last {mid : Loop κ ω} (maxWait : Int) (hs : (l.tick wake.before).Stays mid)
    (hw : l.Fits maxSecs wake) : (mid.tick (wake.last maxWait)).Ok ∧
      wake.last maxWait + maxSecs < mid.baseTime + vecSize * mid.resolution := by
  obtain ⟨hbefore, hafter⟩ := last_le maxWait hw
  have hin := hw.inWheel
  have hnow : mid.now = wake.before := hs.now
  have hres : mid.resolution = l.resolution := hs.resolution
  have hbase : mid.baseTime = l.baseTime := hs.baseTime
  refine ⟨hs.ok.tick (by omega), ?_⟩
  rw [hres, hbase]
  omega

/-- A turn in which the pass succeeds. `P` is known of the pass, and `I mid`
of what follows it where it leaves `mid`. -/
theorem loopOnce_handled {failed : Loop κ ω → Except Fault (Loop κ ω)}
    {poll : σ → Loop κ ω → Except Fault (Loop κ ω)} {ready : σ} {I : Loop κ ω → Loop κ ω → Prop}
    (hb : backend.Lawful) (h : l.Ok) (hw : l.Fits maxSecs wake) (hready : wake.ready = some ready)
    (hpoll : ComesTo (poll ready (l.tick wake.before))
      (fun mid => (l.tick wake.before).Stays mid ∧ P mid) E)
    (hk : ∀ mid, P mid →
      KeepsTime backend maxSecs call (mid.tick (wake.last maxWait)) (I mid) E ∧
      I mid (mid.tick (wake.last maxWait))) :
    ComesTo (loopOnce call maxWait failed poll wake l)
      (fun l' => ∃ mid, P mid ∧ (mid.tick (wake.last maxWait)).Handled l' ∧ I mid l') E := by
  have hres := h.resolution
  unfold loopOnce
  simp only [hready]
  refine hpoll.bind fun mid ⟨hs, hp⟩ => ?_
  obtain ⟨hkeeps, hmid⟩ := hk mid hp
  have hnow : mid.now = wake.before := hs.now
  obtain ⟨hmok, hin⟩ := hs.last maxWait hw
  -- the clock is read again unless there was no wait
  have hclock : (if (if (l.tick wake.before).resolution < maxWait then
      (l.tick wake.before).resolution else maxWait) ≠ 0 then mid.tick wake.after else mid) =
      mid.tick (wake.last maxWait) := by
    have hres' : (l.tick wake.before).resolution = l.resolution := rfl
    unfold Wake.last
    rw [hres']
    by_cases h0 : maxWait = 0
    · rw [if_neg (by rw [if_neg (by omega), h0]; decide), if_pos h0, ← hnow]
      rfl
    · rw [if_neg h0, if_pos (by split <;> omega)]
  rw [hclock]
  have hturns : (mid.tick (wake.last maxWait)).now < (mid.tick (wake.last maxWait)).baseTime +
      ((((mid.tick (wake.last maxWait)).now -
        (mid.tick (wake.last maxWait)).baseTime).toNat : Int) + 1) *
        (mid.tick (wake.last maxWait)).resolution := by
    have htime := hmok.time
    have hpos := hmok.resolution
    rw [Int.toNat_of_nonneg (by omega)]
    nlinarith
  exact (handleTimeout_handled (hkeeps.toOffWheel.and .inWheel) (hkeeps.considerate hb) hmok
    ⟨hmid, hmok.resolution, hin⟩ hturns).mono
    (fun l' ⟨hh, hl', _⟩ => ⟨mid, hp, hh, hl'⟩) fun _ he => he

end

end Loop

end Canvasback.Picoev
