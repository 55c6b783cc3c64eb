import Canvasback.Picoev.Timeouts

/-!
# Calls from callbacks

What a callback may do to its own descriptor and to new ones while timeouts
are handled, and what the calls of picoev.h keep at any time.
-/

namespace Canvasback.Picoev

open TwoLevel

namespace Loop

section
variable {κ ω : Type} {l l' l'' : Loop κ ω} {fd d slot : Nat} {secs : Int} {callback : κ}

-- ---------------------------------------------------------------------------
-- Polite calls
-- ---------------------------------------------------------------------------

theorem Same.refl (l : Loop κ ω) : l.Same l := ⟨rfl, rfl, rfl, rfl, rfl, rfl, rfl⟩

theorem Same.trans (h : l.Same l') (h' : l'.Same l'') : l.Same l'' :=
  ⟨h'.maxFd.trans h.maxFd, h'.loopId.trans h.loopId, h'.baseIdx.trans h.baseIdx,
    h'.baseTime.trans h.baseTime, h'.resolution.trans h.resolution, h'.now.trans h.now,
    h'.log.trans h.log⟩

theorem Same.due (h : l.Same l') : l'.due slot = l.due slot :=
  due_congr h.baseIdx h.baseTime h.resolution

theorem Polite.refl (fd : Nat) (l : Loop κ ω) : l.Polite fd l :=
  ⟨.refl l, id, fun _ _ h => h, rfl, fun _ _ h => h, fun _ h => .inl h⟩

theorem Polite.trans (h : l.Polite fd l') (h' : l'.Polite fd l'') : l.Polite fd l'' := by
  refine ⟨h.toSame.trans h'.toSame, fun hc => h'.core (h.core hc),
    fun hc hs hok => h'.slots (h.core hc) hs (h.slots hc hs hok), ?_,
    fun hd hs ha => h'.others hd hs (h.others hd hs ha), fun hs ha => ?_⟩
  · rw [← h.row, ← h.baseIdx]
    exact h'.row
  · rcases h'.fresh hs ha with ha | hlt
    · exact h.fresh hs ha
    · right
      rwa [h.now, h.toSame.due] at hlt

theorem Quiet.polite (h : l.Quiet l') (fd : Nat) : l.Polite fd l' :=
  ⟨h.toSame, h.core, fun _ _ hs => h.slotOk hs, by rw [h.rows],
    fun _ _ ha => h.armed.mpr ha, fun _ ha => .inl (h.armed.mp ha)⟩

theorem retimed_world : (l.retimed fd secs).world = l.world := by
  rw [retimed, clearTimeout_eq]
  unfold armTimeout
  split <;> rfl

theorem slotOf_ne_base (h : l.Core) (hin : l.InWheel secs) (hs : secs ≠ 0)
    (hlater : l.baseTime + l.resolution ≤ l.now + secs) : l.slotOf secs ≠ l.baseIdx := by
  obtain ⟨hlt, -, hhi⟩ := delta_spec h hin hs
  have hb := h.base
  have hres := h.resolution
  have hpos : l.delta secs ≠ 0 := by
    intro h0
    rw [h0] at hhi
    push_cast at hhi
    linarith
  simp only [slotOf, vecSize] at *
  omega

theorem due_later (h : l.Core) (hin : l.InWheel secs) (hs : secs ≠ 0) :
    l.now + secs < l.due (l.slotOf secs) := by
  rw [due_slotOf h hin hs]
  have := (delta_spec h hin hs).2.2
  linarith

/-- A callback may end or renew its own timeout, unless the wheel stands on it,
and ask for one where there is none. -/
theorem retimed_polite (hc : l.Core) (hfd : l.Belongs fd) (hin : l.InWheel secs)
    (hlater : l.baseTime + l.resolution ≤ l.now)
    (hidle : (l.fds fd).timeoutIdx ≠ l.baseIdx)
    (hown : d = fd ∨ (l.fds fd).timeoutIdx = unused) : l.Polite d (l.retimed fd secs) := by
  have hsame := retimed_same l fd secs
  have hsecs (h : secs ≠ 0) : 0 ≤ secs := (hin.resolve_left h).1
  refine ⟨hsame, fun h => h.retimed hfd hin, fun _ hs h => h.retimed hfd hs, ?_,
    fun {d' slot} hd hs ha => ?_, fun {slot d'} hs ha => ?_⟩
  · rw [retimed, armTimeout_rows, slotOf_clear, if_neg, clearTimeout_rows, if_neg]
    · exact fun h => hidle h.1.symm
    · intro h
      have := hsecs h.2
      exact slotOf_ne_base hc hin h.2 (by linarith) h.1.symm
  · rw [retimed_armed hfd hs, if_neg]
    · exact ha
    · rintro rfl
      rcases hown with rfl | hun
      · exact hd rfl
      · have hslot := ha.2
        simp only [hun, vecSize, unused] at hslot hs
        omega
  · rw [retimed_armed hfd hs] at ha
    split at ha
    · obtain ⟨hne, rfl⟩ := ha
      have := hsecs hne
      have := due_later hc hin hne
      exact .inr (by omega)
    · exact .inl ha

/-- A descriptor off the slot the wheel stands on stays off it. -/
theorem retimed_stays (hc : l.Core) (hin : l.InWheel secs)
    (hlater : l.baseTime + l.resolution ≤ l.now) (hidle : (l.fds d).timeoutIdx ≠ l.baseIdx) :
    ((l.retimed fd secs).fds d).timeoutIdx ≠ (l.retimed fd secs).baseIdx := by
  have hb := hc.base
  rw [(retimed_same l fd secs).baseIdx, retimed_fds]
  split
  · split
    · simp only [vecSize, unused] at *
      omega
    · rename_i hne
      have := (hin.resolve_left hne).1
      exact slotOf_ne_base hc hin hne (by linarith)
  · exact hidle

theorem entered_polite (callback : κ) (hmax : fd < l.maxFd) (hfd : ¬ l.Belongs fd) (d : Nat) :
    l.Polite d (l.entered fd callback) :=
  ⟨⟨rfl, rfl, rfl, rfl, rfl, rfl, rfl⟩, fun h => h.entered hmax hfd,
    fun _ hs h => h.entered hfd hs, rfl, fun _ hs ha => (entered_armed hfd hs).mpr ha,
    fun hs ha => .inl ((entered_armed hfd hs).mp ha)⟩

theorem left_polite (hid : l.loopId ≠ 0) (hidx : (l.fds fd).timeoutIdx = unused) (d : Nat) :
    l.Polite d (l.left fd) :=
  ⟨⟨rfl, rfl, rfl, rfl, rfl, rfl, rfl⟩, fun h => h.left hidx, fun _ hs h => h.left hid hidx hs,
    rfl, fun _ hs ha => (left_armed hid hidx hs).mpr ha,
    fun hs ha => .inl ((left_armed hid hidx hs).mp ha)⟩

-- ---------------------------------------------------------------------------
-- Calls at any time
-- ---------------------------------------------------------------------------

variable {backend : Backend κ ω} {events : Events}

theorem Ok.entered (h : l.Ok) (hmax : fd < l.maxFd) (hfd : ¬ l.Belongs fd) :
    (l.entered fd callback).Ok :=
  ⟨h.toCore.entered hmax hfd, fun slot hs => (h.slots slot hs).entered hfd hs⟩

theorem Ok.left (h : l.Ok) (hidx : (l.fds fd).timeoutIdx = unused) : (l.left fd).Ok :=
  ⟨h.toCore.left hidx, fun slot hs => (h.slots slot hs).left h.loopId hidx hs⟩

theorem retimed_idle : ((l.retimed fd 0).fds fd).timeoutIdx = unused := by
  rw [retimed_fds, if_pos rfl, if_pos rfl]

/-- The calls of picoev.h. -/
inductive Call (κ : Type) where
  | add (fd : Nat) (events : Events) (secs : Int) (callback : κ)
  | del (fd : Nat)
  | setTimeout (fd : Nat) (secs : Int)
  | setEvents (fd : Nat) (events : Events)

def Call.run (backend : Backend κ ω) (l : Loop κ ω) : Call κ → Except Fault (Loop κ ω)
  | .add fd events secs callback => l.add backend fd events secs callback
  | .del fd => l.del backend fd
  | .setTimeout fd secs => l.setTimeout fd secs
  | .setEvents fd events => l.setEvents backend fd events

/-- The timeout asked for. -/
def Call.timeout : Call κ → Int
  | .add _ _ secs _ => secs
  | .setTimeout _ secs => secs
  | _ => 0

/-- A call that leaves the timeouts of descriptors other than `fd` alone. -/
def Call.About (fd : Nat) : Call κ → Prop
  | .del fd' => fd' = fd
  | .setTimeout fd' _ => fd' = fd
  | _ => True

theorem InWheel.congr (h : l.Same l') : l'.InWheel secs ↔ l.InWheel secs := by
  unfold InWheel
  rw [h.now, h.baseTime, h.resolution]

theorem InWheel.zero : l.InWheel 0 := .inl rfl

theorem setEvents_quiet (hb : backend.Lawful) (h : l.setEvents backend fd events = .ok l') :
    l' = l ∨ l.Quiet l' := by
  unfold setEvents at h
  split at h
  · split at h
    · cases h
      exact .inl rfl
    · exact .inr (hb.quiet h)
  · cases h

theorem Call.same {c : Call κ} (hb : backend.Lawful) (h : c.run backend l = .ok l') :
    l.Same l' := by
  cases c with
  | add fd events secs callback =>
    obtain ⟨-, l₁, hu, -, rfl⟩ := add_ok h
    have hent : l.Same (l.entered fd callback) := ⟨rfl, rfl, rfl, rfl, rfl, rfl, rfl⟩
    exact (hent.trans (hb.quiet hu).toSame).trans (retimed_same l₁ fd secs)
  | del fd =>
    obtain ⟨-, l₁, hu, -, rfl⟩ := del_ok h
    have hleft : (l₁.retimed fd 0).Same ((l₁.retimed fd 0).left fd) :=
      ⟨rfl, rfl, rfl, rfl, rfl, rfl, rfl⟩
    exact ((hb.quiet hu).toSame.trans (retimed_same l₁ fd 0)).trans hleft
  | setTimeout fd secs =>
    obtain ⟨-, rfl⟩ := setTimeout_ok.mp h
    exact retimed_same l fd secs
  | setEvents fd events =>
    rcases setEvents_quiet hb h with rfl | hq
    · exact .refl l'
    · exact hq.toSame

/-- Only `picoev_add` makes a descriptor belong to the loop. -/
theorem Call.belongs {c : Call κ} (hb : backend.Lawful) (h : c.run backend l = .ok l')
    (hd : l'.Belongs d) :
    l.Belongs d ∨ ∃ events secs callback, c = .add d events secs callback := by
  cases c with
  | add fd events secs callback =>
    obtain ⟨-, l₁, hu, -, rfl⟩ := add_ok h
    have hd := entered_belongs.mp ((hb.quiet hu).belongs.mp (retimed_belongs.mp hd))
    rcases hd with rfl | hd
    · exact .inr ⟨events, secs, callback, rfl⟩
    · exact .inl hd
  | del fd =>
    obtain ⟨-, l₁, hu, ⟨-, hfd⟩, rfl⟩ := del_ok h
    left
    by_cases hne : d = fd
    · rw [hne]
      exact (hb.quiet hu).belongs.mp hfd
    · have hd : (l₁.retimed fd 0).Belongs d := by
        unfold Belongs left at hd
        rw [setFd_fds, if_neg hne] at hd
        exact hd
      exact (hb.quiet hu).belongs.mp (retimed_belongs.mp hd)
  | setTimeout fd secs =>
    obtain ⟨-, rfl⟩ := setTimeout_ok.mp h
    exact .inl (retimed_belongs.mp hd)
  | setEvents fd events =>
    rcases setEvents_quiet hb h with rfl | hq
    · exact .inl hd
    · exact .inl (hq.belongs.mp hd)

/-- Every call keeps the wheel. -/
theorem Call.ok {c : Call κ} (hb : backend.Lawful) (hl : l.Ok) (hin : l.InWheel c.timeout)
    (h : c.run backend l = .ok l') : l'.Ok := by
  cases c with
  | add fd events secs callback =>
    obtain ⟨⟨hmax, hfree⟩, l₁, hu, ⟨-, hbel⟩, rfl⟩ := add_ok h
    have hfd : ¬ l.Belongs fd := fun hfd => hl.loopId (hfd.symm.trans hfree)
    have hq := hb.quiet hu
    have hent : l.Same (l.entered fd callback) := ⟨rfl, rfl, rfl, rfl, rfl, rfl, rfl⟩
    exact (hq.ok (hl.entered hmax hfd)).retimed hbel
      ((InWheel.congr (hent.trans hq.toSame)).mpr hin)
  | del fd =>
    obtain ⟨-, l₁, hu, ⟨-, hbel⟩, rfl⟩ := del_ok h
    exact (((hb.quiet hu).ok hl).retimed hbel .zero).left retimed_idle
  | setTimeout fd secs =>
    obtain ⟨⟨-, hbel⟩, rfl⟩ := setTimeout_ok.mp h
    exact hl.retimed hbel hin
  | setEvents fd events =>
    rcases setEvents_quiet hb h with rfl | hq
    · exact hl
    · exact hq.ok hl

/-- In the callback of a timeout, calls about its own descriptor are polite; it
stays off the slot the wheel stands on. -/
theorem Call.polite {c : Call κ} (hb : backend.Lawful) (hl : l.Core)
    (hlater : l.baseTime + l.resolution ≤ l.now) (hidle : (l.fds fd).timeoutIdx ≠ l.baseIdx)
    (hown : c.About fd) (hin : l.InWheel c.timeout) (h : c.run backend l = .ok l') :
    l.Polite fd l' ∧ (l'.fds fd).timeoutIdx ≠ l'.baseIdx := by
  have hb' := hl.base
  have hout : unused ≠ l.baseIdx := by
    simp only [vecSize, unused] at *
    omega
  cases c with
  | add fd' events secs callback =>
    obtain ⟨⟨hmax, hfree⟩, l₁, hu, ⟨-, hbel⟩, rfl⟩ := add_ok h
    have hfd : ¬ l.Belongs fd' := fun hfd => hl.loopId (hfd.symm.trans hfree)
    have hq := hb.quiet hu
    have hp := (entered_polite callback hmax hfd fd).trans (hq.polite fd)
    have hnew : (l₁.fds fd').timeoutIdx = unused := by
      rw [hq.timeoutIdx]
      simp [entered]
    have hin₁ : l₁.InWheel secs := (InWheel.congr hp.toSame).mpr hin
    have hlater₁ : l₁.baseTime + l₁.resolution ≤ l₁.now := by
      rw [hp.baseTime, hp.resolution, hp.now]
      exact hlater
    have hidle₁ : (l₁.fds fd).timeoutIdx ≠ l₁.baseIdx := by
      rw [hq.timeoutIdx, hp.baseIdx]
      simp only [entered, setFd_fds]
      split
      · exact hout
      · exact hidle
    refine ⟨hp.trans (retimed_polite (hp.core hl) hbel hin₁ hlater₁ ?_ (.inr hnew)),
      retimed_stays (hp.core hl) hin₁ hlater₁ hidle₁⟩
    rw [hnew, hp.baseIdx]
    exact hout
  | del fd' =>
    obtain rfl : fd' = fd := hown
    obtain ⟨-, l₁, hu, ⟨-, hbel⟩, rfl⟩ := del_ok h
    have hq := hb.quiet hu
    have hp := hq.polite fd'
    have hlater₁ : l₁.baseTime + l₁.resolution ≤ l₁.now := by
      rw [hp.baseTime, hp.resolution, hp.now]
      exact hlater
    have hidle₁ : (l₁.fds fd').timeoutIdx ≠ l₁.baseIdx := by
      rw [hq.timeoutIdx, hp.baseIdx]
      exact hidle
    have hp₂ := retimed_polite (hp.core hl) hbel .zero hlater₁ hidle₁ (.inl rfl)
    have hid : (l₁.retimed fd' 0).loopId ≠ 0 := by
      rw [hp₂.loopId, hp.loopId]
      exact hl.loopId
    refine ⟨(hp.trans hp₂).trans (left_polite hid retimed_idle fd'), ?_⟩
    have hgone : (((l₁.retimed fd' 0).left fd').fds fd').timeoutIdx = unused := by
      simp only [left, setFd_fds, if_true]
      exact retimed_idle
    rw [hgone]
    show unused ≠ (l₁.retimed fd' 0).baseIdx
    rw [hp₂.baseIdx, hp.baseIdx]
    exact hout
  | setTimeout fd' secs =>
    obtain rfl : fd' = fd := hown
    obtain ⟨⟨-, hbel⟩, rfl⟩ := setTimeout_ok.mp h
    exact ⟨retimed_polite hl hbel hin hlater hidle (.inl rfl), retimed_stays hl hin hlater hidle⟩
  | setEvents fd' events =>
    rcases setEvents_quiet hb h with rfl | hq
    · exact ⟨.refl fd l', hidle⟩
    · refine ⟨hq.polite fd, ?_⟩
      rw [hq.timeoutIdx, hq.baseIdx]
      exact hidle

-- ---------------------------------------------------------------------------
-- Call after call
-- ---------------------------------------------------------------------------

/-- A program at work: it makes calls of one kind, with timeouts up to
`maxSecs`, and changes what is its own. -/
inductive Acts (backend : Backend κ ω) (maxSecs : Int) (kind : Call κ → Prop) (l : Loop κ ω) :
    Loop κ ω → Prop
  | refl : Acts backend maxSecs kind l l
  | call {c : Call κ} {mid next : Loop κ ω} (h : Acts backend maxSecs kind l mid) (hk : kind c)
      (ht : 0 ≤ c.timeout ∧ c.timeout ≤ maxSecs) (hr : c.run backend mid = .ok next) :
      Acts backend maxSecs kind l next
  | world {mid : Loop κ ω} (h : Acts backend maxSecs kind l mid) (w : ω) :
      Acts backend maxSecs kind l { mid with world := w }

theorem Ok.setWorld (h : l.Ok) (w : ω) : ({ l with world := w } : Loop κ ω).Ok :=
  ⟨⟨h.loopId, h.base, h.resolution, h.time, h.range, h.idx, h.callback, h.window, h.log⟩,
    fun slot hs => (h.slots slot hs).congr rfl fun _ => Iff.rfl⟩

theorem Core.setWorld (h : l.Core) (w : ω) : ({ l with world := w } : Loop κ ω).Core :=
  ⟨h.loopId, h.base, h.resolution, h.time, h.range, h.idx, h.callback, h.window, h.log⟩

theorem setWorld_polite (l : Loop κ ω) (w : ω) (fd : Nat) : l.Polite fd { l with world := w } :=
  ⟨⟨rfl, rfl, rfl, rfl, rfl, rfl, rfl⟩, fun h => h.setWorld w,
    fun _ _ h => h.congr rfl fun _ => Iff.rfl, rfl, fun _ _ h => h, fun _ h => .inl h⟩

variable {maxSecs : Int} {kind : Call κ → Prop}

theorem inWheel_of_le (h : l.now + maxSecs < l.baseTime + vecSize * l.resolution)
    (hs : 0 ≤ secs ∧ secs ≤ maxSecs) : l.InWheel secs := .inr ⟨hs.1, by omega⟩

theorem Acts.mono {kind' : Call κ → Prop} (ha : Acts backend maxSecs kind l l')
    (hk : ∀ c, kind c → kind' c) : Acts backend maxSecs kind' l l' := by
  induction ha with
  | refl => exact .refl
  | call _ hkind ht hr ih => exact .call ih (hk _ hkind) ht hr
  | world _ w ih => exact .world ih w

theorem Acts.ok (ha : Acts backend maxSecs kind l l') (hb : backend.Lawful) (h : l.Ok)
    (hin : l.now + maxSecs < l.baseTime + vecSize * l.resolution) : l'.Ok ∧ l.Same l' := by
  induction ha with
  | refl => exact ⟨h, .refl _⟩
  | call _ _ ht hr ih =>
    obtain ⟨hok, hs⟩ := ih
    exact ⟨Call.ok hb hok ((InWheel.congr hs).mpr (inWheel_of_le hin ht)) hr,
      hs.trans (Call.same hb hr)⟩
  | world _ w ih => exact ⟨ih.1.setWorld w, ih.2.trans (setWorld_polite _ w 0).toSame⟩

theorem Acts.polite (ha : Acts backend maxSecs (Call.About fd) l l') (hb : backend.Lawful)
    (h : l.Core) (hlater : l.baseTime + l.resolution ≤ l.now)
    (hidle : (l.fds fd).timeoutIdx ≠ l.baseIdx)
    (hin : l.now + maxSecs < l.baseTime + vecSize * l.resolution) :
    l.Polite fd l' ∧ (l'.fds fd).timeoutIdx ≠ l'.baseIdx := by
  induction ha with
  | refl => exact ⟨.refl fd l, hidle⟩
  | call _ hk ht hr ih =>
    obtain ⟨hp, hi⟩ := ih
    have hlater' := hlater
    rw [← hp.baseTime, ← hp.resolution, ← hp.now] at hlater'
    obtain ⟨hp', hi'⟩ := Call.polite hb (hp.core h) hlater' hi hk
      ((InWheel.congr hp.toSame).mpr (inWheel_of_le hin ht)) hr
    exact ⟨hp.trans hp', hi'⟩
  | world _ w ih => exact ⟨ih.1.trans (setWorld_polite _ w fd), ih.2⟩

end

end Loop

end Canvasback.Picoev
