import Canvasback.Lib.Runs
import Canvasback.Picoev
import Mathlib.Algebra.Order.Group.Int
import Mathlib.Tactic.Linarith
import Mathlib.Tactic.NormNum

/-!
# Timeouts and the wheel

A descriptor that waits for a timeout has its slot in the table and its bit in
the slot, and in no other. The wheel comes to the slot after the deadline and
no more than one turn of a slot after it.
-/

namespace Canvasback.Picoev

open TwoLevel

namespace Loop

section
variable {κ ω : Type}

/-- A descriptor waits in a slot. -/
def Armed (l : Loop κ ω) (fd slot : Nat) : Prop := l.Belongs fd ∧ (l.fds fd).timeoutIdx = slot

/-- The time from which on the wheel passes a slot. -/
def due (l : Loop κ ω) (slot : Nat) : Int :=
  l.baseTime + (((slot + vecSize - l.baseIdx) % vecSize + 1 : Nat) : Int) * l.resolution

/-- A timeout that does not reach round the wheel, nor behind its base. -/
def InWheel (l : Loop κ ω) (secs : Int) : Prop :=
  secs = 0 ∨ 0 ≤ secs ∧ l.now + secs < l.baseTime + vecSize * l.resolution

instance (l : Loop κ ω) (secs : Int) : Decidable (l.InWheel secs) :=
  inferInstanceAs (Decidable (_ ∨ _ ∧ _))

/-- The bits of a slot are the descriptors that wait in it. -/
structure SlotOk (l : Loop κ ω) (slot : Nat) : Prop where
  wf : (l.rows slot).Wf
  mem : ∀ fd, (l.rows slot).Mem fd ↔ l.Armed fd slot

/-- What holds of the table and the clock. -/
structure Core (l : Loop κ ω) : Prop where
  loopId : l.loopId ≠ 0
  base : l.baseIdx < vecSize
  resolution : 0 < l.resolution
  time : l.baseTime ≤ l.now
  range : l.Belongs fd → fd < l.maxFd
  idx : l.Belongs fd → (l.fds fd).timeoutIdx < vecSize ∨ (l.fds fd).timeoutIdx = unused
  callback : l.Belongs fd → (l.fds fd).callback ≠ none
  /-- Neither early nor late. -/
  window : l.Armed fd slot → slot < vecSize →
    (l.fds fd).deadline < l.due slot ∧ l.due slot ≤ (l.fds fd).deadline + l.resolution
  log : ∀ e ∈ l.log, e.revents = .timeout → e.deadline < e.time

structure Ok (l : Loop κ ω) : Prop extends l.Core where
  slots : ∀ slot < vecSize, l.SlotOk slot

/-- The same loop at the same time. -/
structure Same (l l' : Loop κ ω) : Prop where
  maxFd : l'.maxFd = l.maxFd
  loopId : l'.loopId = l.loopId
  baseIdx : l'.baseIdx = l.baseIdx
  baseTime : l'.baseTime = l.baseTime
  resolution : l'.resolution = l.resolution
  now : l'.now = l.now
  log : l'.log = l.log

/-- Nothing about timeouts is different. -/
structure Quiet (l l' : Loop κ ω) : Prop extends l.Same l' where
  callback : (l'.fds fd).callback = (l.fds fd).callback
  fdLoopId : (l'.fds fd).loopId = (l.fds fd).loopId
  timeoutIdx : (l'.fds fd).timeoutIdx = (l.fds fd).timeoutIdx
  deadline : (l'.fds fd).deadline = (l.fds fd).deadline
  rows : l'.rows = l.rows

end

end Loop

/-- A backend leaves timeouts alone. -/
structure Backend.Lawful {κ ω : Type} (b : Backend κ ω) : Prop where
  quiet : b.update l fd u = .ok l' → l.Quiet l'

namespace Loop

section
variable {κ ω : Type} {l l' : Loop κ ω} {fd d slot : Nat} {secs : Int}

-- ---------------------------------------------------------------------------
-- What changes where
-- ---------------------------------------------------------------------------

@[simp] theorem setFd_fds (e : Entry κ) :
    (l.setFd fd e).fds d = if d = fd then e else l.fds d := Function.update_apply ..

theorem clearTimeout_eq (l : Loop κ ω) (fd : Nat) : l.clearTimeout fd =
    { l with
      fds := Function.update l.fds fd { l.fds fd with timeoutIdx := unused }
      rows := if (l.fds fd).timeoutIdx = unused then l.rows
        else Function.update l.rows (l.fds fd).timeoutIdx
          ((l.rows (l.fds fd).timeoutIdx).erase fd) } := by
  unfold clearTimeout
  split
  · rename_i h
    have hself : { l.fds fd with timeoutIdx := unused } = l.fds fd := by rw [← h]
    simp only [hself, h, if_true, Function.update_eq_self]
  · rename_i h
    simp only [h, if_false]
    rfl

@[simp] theorem clearTimeout_fds : (l.clearTimeout fd).fds d =
    if d = fd then { l.fds fd with timeoutIdx := unused } else l.fds d := by
  rw [clearTimeout_eq]
  exact Function.update_apply ..

@[simp] theorem clearTimeout_rows : (l.clearTimeout fd).rows slot =
    if slot = (l.fds fd).timeoutIdx ∧ slot ≠ unused then (l.rows slot).erase fd
    else l.rows slot := by
  rw [clearTimeout_eq]
  by_cases h : (l.fds fd).timeoutIdx = unused
  · have hno : ¬ (slot = (l.fds fd).timeoutIdx ∧ slot ≠ unused) := fun ⟨he, hne⟩ => hne (he.trans h)
    simp only [h, if_true]
    rw [h] at hno
    rw [if_neg hno]
  · simp only [h, if_false, Function.update_apply]
    by_cases hs : slot = (l.fds fd).timeoutIdx
    · rw [if_pos hs, if_pos ⟨hs, hs ▸ h⟩, hs]
    · rw [if_neg hs, if_neg fun hc => hs hc.1]

@[simp] theorem armTimeout_fds : (l.armTimeout fd secs).fds d =
    if d = fd ∧ secs ≠ 0 then
      { l.fds fd with timeoutIdx := l.slotOf secs, deadline := l.now + secs }
    else l.fds d := by
  unfold armTimeout
  by_cases h : secs = 0
  · simp [h]
  · simp only [h, if_false, setRows, ne_eq, not_false_eq_true, and_true]
    exact Function.update_apply ..

@[simp] theorem armTimeout_rows : (l.armTimeout fd secs).rows slot =
    if slot = l.slotOf secs ∧ secs ≠ 0 then (l.rows slot).insert fd else l.rows slot := by
  unfold armTimeout
  by_cases h : secs = 0
  · simp [h]
  · simp only [h, if_false, setRows, setFd, ne_eq, not_false_eq_true, and_true]
    rw [Function.update_apply]
    split
    · rename_i hs
      rw [hs]
    · rfl

/-- `picoev_set_timeout`, once it is past its assertions. -/
def retimed (l : Loop κ ω) (fd : Nat) (secs : Int) : Loop κ ω :=
  (l.clearTimeout fd).armTimeout fd secs

theorem retimed_same (l : Loop κ ω) (fd : Nat) (secs : Int) : l.Same (l.retimed fd secs) := by
  rw [retimed, clearTimeout_eq]
  unfold armTimeout
  split <;> exact ⟨rfl, rfl, rfl, rfl, rfl, rfl, rfl⟩

theorem setTimeout_ok : l.setTimeout fd secs = .ok l' ↔
    (fd < l.maxFd ∧ l.Belongs fd) ∧ l' = l.retimed fd secs := by
  unfold setTimeout retimed
  split
  · rename_i h
    simp [h, eq_comm]
  · rename_i h
    simp [h]

theorem slotOf_clear : (l.clearTimeout fd).slotOf secs = l.slotOf secs := by
  rw [clearTimeout_eq]
  rfl

theorem retimed_fds : (l.retimed fd secs).fds d =
    if d = fd then
      if secs = 0 then { l.fds fd with timeoutIdx := unused }
      else { l.fds fd with timeoutIdx := l.slotOf secs, deadline := l.now + secs }
    else l.fds d := by
  have hnow : (l.clearTimeout fd).now = l.now := by rw [clearTimeout_eq]
  simp only [retimed, armTimeout_fds, clearTimeout_fds, slotOf_clear, hnow]
  by_cases hd : d = fd
  · by_cases hs : secs = 0 <;> simp [hd, hs]
  · simp [hd]

theorem retimed_belongs : (l.retimed fd secs).Belongs d ↔ l.Belongs d := by
  unfold Belongs
  rw [retimed_fds, (retimed_same l fd secs).loopId]
  split
  · rename_i hd
    subst hd
    split <;> rfl
  · rfl

theorem retimed_armed (hfd : l.Belongs fd) (hslot : slot < vecSize) :
    (l.retimed fd secs).Armed d slot ↔
      if d = fd then secs ≠ 0 ∧ slot = l.slotOf secs else l.Armed d slot := by
  have hne : unused ≠ slot := by
    simp only [vecSize, unused] at *
    omega
  unfold Armed
  rw [retimed_belongs, retimed_fds]
  by_cases hd : d = fd
  · subst hd
    by_cases hs : secs = 0
    · simp [hs, hne]
    · simp [hs, hfd, eq_comm]
  · simp [hd]

-- ---------------------------------------------------------------------------
-- Slots
-- ---------------------------------------------------------------------------

/-- A slot is kept by whatever keeps its bits and who waits in it. -/
theorem SlotOk.congr (h : l.SlotOk slot) (hr : l'.rows slot = l.rows slot)
    (ha : ∀ d, l'.Armed d slot ↔ l.Armed d slot) : l'.SlotOk slot := by
  refine ⟨?_, fun d => ?_⟩
  · rw [hr]
    exact h.wf
  · rw [hr, ha]
    exact h.mem d

theorem SlotOk.retimed (h : l.SlotOk slot) (hfd : l.Belongs fd) (hslot : slot < vecSize) :
    (l.retimed fd secs).SlotOk slot := by
  have hw : 0 < 16 := by decide
  have hne : slot ≠ unused := by
    simp only [vecSize, unused] at *
    omega
  -- the bit is out first, and then in again if the slot is the new one
  have hclear : ∀ d, ((l.clearTimeout fd).rows slot).Mem d ↔ d ≠ fd ∧ l.Armed d slot := by
    intro d
    rw [clearTimeout_rows]
    split
    · rw [Rows.mem_erase hw, h.mem]
    · rename_i hno
      rw [h.mem]
      constructor
      · intro ha
        refine ⟨?_, ha⟩
        rintro rfl
        exact hno ⟨ha.2.symm, hne⟩
      · exact And.right
  have hwf : ((l.clearTimeout fd).rows slot).Wf := by
    rw [clearTimeout_rows]
    split
    · exact h.wf.erase hw fd
    · exact h.wf
  refine ⟨?_, fun d => ?_⟩
  · show ((l.clearTimeout fd).armTimeout fd secs).rows slot |>.Wf
    rw [armTimeout_rows]
    split
    · exact hwf.insert hw fd
    · exact hwf
  · rw [retimed_armed hfd hslot]
    show (((l.clearTimeout fd).armTimeout fd secs).rows slot).Mem d ↔ _
    rw [armTimeout_rows, slotOf_clear]
    split
    · rename_i hin
      rw [Rows.mem_insert hw, hclear]
      by_cases hd : d = fd
      · simp [hd, hin.1, hin.2]
      · simp [hd]
    · rename_i hout
      rw [hclear]
      by_cases hd : d = fd
      · have : ¬ (secs ≠ 0 ∧ slot = l.slotOf secs) := fun hc => hout ⟨hc.2, hc.1⟩
        simp only [hd, ne_eq, not_true_eq_false, false_and, if_true, false_iff]
        exact this
      · simp [hd]

-- ---------------------------------------------------------------------------
-- The window
-- ---------------------------------------------------------------------------

theorem due_congr (hb : l'.baseIdx = l.baseIdx) (ht : l'.baseTime = l.baseTime)
    (hr : l'.resolution = l.resolution) : l'.due slot = l.due slot := by
  rw [due, due, hb, ht, hr]

/-- How far ahead a timeout goes. -/
theorem delta_spec (h : l.Core) (hin : l.InWheel secs) (hs : secs ≠ 0) :
    l.delta secs < vecSize ∧ (l.delta secs : Int) * l.resolution ≤ l.now + secs - l.baseTime ∧
      l.now + secs - l.baseTime < (l.delta secs + 1) * l.resolution := by
  obtain ⟨h0, hlt⟩ : 0 ≤ secs ∧ l.now + secs < l.baseTime + vecSize * l.resolution :=
    hin.resolve_left hs
  have hres := h.resolution
  have htime := h.time
  have hnn : 0 ≤ l.now + secs - l.baseTime := by omega
  have hq : (l.now + secs - l.baseTime).tdiv l.resolution =
      (l.now + secs - l.baseTime) / l.resolution := Int.tdiv_eq_ediv_of_nonneg hnn
  have hq0 : 0 ≤ (l.now + secs - l.baseTime) / l.resolution := Int.ediv_nonneg hnn hres.le
  have hq1 : (l.now + secs - l.baseTime) / l.resolution < 128 := by
    refine Int.ediv_lt_of_lt_mul hres ?_
    simp only [vecSize] at hlt
    push_cast at hlt
    linarith
  have hdelta : (l.delta secs : Int) = (l.now + secs - l.baseTime) / l.resolution := by
    unfold delta
    simp only [hq]
    rw [Int.emod_eq_of_lt hq0 (by omega)]
    rw [if_neg (by simp only [vecSize]; omega)]
    omega
  rw [hdelta]
  refine ⟨by simp only [vecSize]; omega, Int.ediv_mul_le _ hres.ne', ?_⟩
  exact Int.lt_ediv_add_one_mul_self _ hres

theorem due_slotOf (h : l.Core) (hin : l.InWheel secs) (hs : secs ≠ 0) :
    l.due (l.slotOf secs) = l.baseTime + (l.delta secs + 1) * l.resolution := by
  obtain ⟨hlt, -⟩ := delta_spec h hin hs
  have hb := h.base
  have hback : (l.slotOf secs + vecSize - l.baseIdx) % vecSize = l.delta secs := by
    simp only [slotOf, vecSize] at *
    omega
  rw [due, hback]
  push_cast
  ring

theorem slotOf_lt : l.slotOf secs < vecSize := Nat.mod_lt _ (by decide)

theorem Core.retimed (h : l.Core) (hfd : l.Belongs fd) (hin : l.InWheel secs) :
    (l.retimed fd secs).Core := by
  obtain ⟨hmax, hid, hbase, htime, hres, hnow, hlog⟩ := retimed_same l fd secs
  refine ⟨hid ▸ h.loopId, hbase ▸ h.base, hres ▸ h.resolution, ?_, fun hd => ?_, fun hd => ?_,
    fun hd => ?_, fun {d slot} ha hslot => ?_, hlog ▸ h.log⟩
  · rw [htime, hnow]
    exact h.time
  · rw [hmax]
    exact h.range (retimed_belongs.mp hd)
  · rw [retimed_fds]
    split
    · split
      · exact .inr rfl
      · exact .inl slotOf_lt
    · exact h.idx (retimed_belongs.mp hd)
  · rename_i d
    have hcb := h.callback (retimed_belongs.mp hd)
    rw [retimed_fds]
    split
    · rename_i he
      subst he
      split <;> exact hcb
    · exact hcb
  · rw [due_congr hbase htime hres, hres]
    rw [retimed_armed hfd hslot] at ha
    rw [retimed_fds]
    split at ha
    · rename_i hd
      obtain ⟨hs, rfl⟩ := ha
      obtain ⟨-, hlo, hhi⟩ := delta_spec h hin hs
      rw [if_pos hd, if_neg hs, due_slotOf h hin hs]
      simp only
      constructor <;> linarith
    · rename_i hd
      rw [if_neg hd]
      exact h.window ha hslot

theorem Ok.retimed (h : l.Ok) (hfd : l.Belongs fd) (hin : l.InWheel secs) :
    (l.retimed fd secs).Ok :=
  ⟨h.toCore.retimed hfd hin, fun slot hslot => (h.slots slot hslot).retimed hfd hslot⟩

-- ---------------------------------------------------------------------------
-- Registrations
-- ---------------------------------------------------------------------------

theorem Quiet.belongs (h : l.Quiet l') : l'.Belongs fd ↔ l.Belongs fd := by
  unfold Belongs
  rw [h.fdLoopId, h.loopId]

theorem Quiet.armed (h : l.Quiet l') : l'.Armed fd slot ↔ l.Armed fd slot := by
  unfold Armed
  rw [h.belongs, h.timeoutIdx]

theorem Quiet.core (h : l.Quiet l') (hl : l.Core) : l'.Core := by
  refine ⟨h.loopId ▸ hl.loopId, h.baseIdx ▸ hl.base, h.resolution ▸ hl.resolution, ?_, fun hd => ?_,
    fun hd => ?_, fun hd => ?_, fun ha hs => ?_, h.log ▸ hl.log⟩
  · rw [h.baseTime, h.now]
    exact hl.time
  · rw [h.maxFd]
    exact hl.range (h.belongs.mp hd)
  · rw [h.timeoutIdx]
    exact hl.idx (h.belongs.mp hd)
  · rw [h.callback]
    exact hl.callback (h.belongs.mp hd)
  · rw [h.deadline, h.resolution, due_congr h.baseIdx h.baseTime h.resolution]
    exact hl.window (h.armed.mp ha) hs

theorem Quiet.slotOk (h : l.Quiet l') (hs : l.SlotOk slot) : l'.SlotOk slot :=
  hs.congr (by rw [h.rows]) fun _ => h.armed

theorem Quiet.ok (h : l.Quiet l') (hl : l.Ok) : l'.Ok :=
  ⟨h.core hl.toCore, fun slot hs => h.slotOk (hl.slots slot hs)⟩

/-- A descriptor on its way into the table. -/
def entered (l : Loop κ ω) (fd : Nat) (callback : κ) : Loop κ ω :=
  l.setFd fd { l.fds fd with
    callback := some callback, loopId := l.loopId, events := .none, timeoutIdx := unused }

theorem entered_belongs {callback : κ} :
    (l.entered fd callback).Belongs d ↔ d = fd ∨ l.Belongs d := by
  unfold Belongs entered
  rw [setFd_fds]
  split
  · rename_i hd
    simp [hd, setFd]
  · rename_i hd
    simp [hd, setFd]

theorem entered_armed {callback : κ} (hfd : ¬ l.Belongs fd) (hslot : slot < vecSize) :
    (l.entered fd callback).Armed d slot ↔ l.Armed d slot := by
  have hne : unused ≠ slot := by
    simp only [vecSize, unused] at *
    omega
  unfold Armed
  rw [entered_belongs]
  unfold entered
  rw [setFd_fds]
  by_cases hd : d = fd
  · simp [hd, hne, hfd]
  · simp [hd]

theorem Core.entered {callback : κ} (h : l.Core) (hmax : fd < l.maxFd) (hfd : ¬ l.Belongs fd) :
    (l.entered fd callback).Core := by
  refine ⟨h.loopId, h.base, h.resolution, h.time, fun hd => ?_, fun hd => ?_, fun hd => ?_,
    fun {d slot} ha hslot => ?_, h.log⟩
  · rcases entered_belongs.mp hd with rfl | hd
    · exact hmax
    · exact h.range hd
  · rename_i d
    unfold Loop.entered
    rw [setFd_fds]
    split
    · exact .inr rfl
    · rename_i hne
      exact h.idx ((entered_belongs.mp hd).resolve_left hne)
  · rename_i d
    unfold Loop.entered
    rw [setFd_fds]
    split
    · exact Option.some_ne_none _
    · rename_i hne
      exact h.callback ((entered_belongs.mp hd).resolve_left hne)
  · rw [entered_armed hfd hslot] at ha
    have hne : d ≠ fd := by
      rintro rfl
      exact hfd ha.1
    have hwin := h.window ha hslot
    unfold Loop.entered
    rw [setFd_fds, if_neg hne]
    exact hwin

theorem SlotOk.entered {callback : κ} (h : l.SlotOk slot) (hfd : ¬ l.Belongs fd)
    (hslot : slot < vecSize) : (l.entered fd callback).SlotOk slot :=
  h.congr rfl fun _ => entered_armed hfd hslot

/-- What `picoev_add` leaves, and when. -/
theorem add_ok {backend : Backend κ ω} {events : Events} {callback : κ}
    (h : l.add backend fd events secs callback = .ok l') :
    (fd < l.maxFd ∧ (l.fds fd).loopId = 0) ∧ ∃ l₁,
      backend.update (l.entered fd callback) fd (.add events) = .ok l₁ ∧
      (fd < l₁.maxFd ∧ l₁.Belongs fd) ∧ l' = l₁.retimed fd secs := by
  unfold add at h
  simp only at h
  split at h
  · rename_i hc
    obtain ⟨l₁, hu, h⟩ := Runs.bind_eq_ok.mp h
    exact ⟨hc, l₁, hu, setTimeout_ok.mp h⟩
  · cases h

/-- A descriptor taken out of the table. -/
def left (l : Loop κ ω) (fd : Nat) : Loop κ ω := l.setFd fd { l.fds fd with loopId := 0 }

/-- What `picoev_del` leaves, and when. -/
theorem del_ok {backend : Backend κ ω} (h : l.del backend fd = .ok l') :
    fd < l.maxFd ∧ ∃ l₁, backend.update l fd .del = .ok l₁ ∧ (fd < l₁.maxFd ∧ l₁.Belongs fd) ∧
      l' = (l₁.retimed fd 0).left fd := by
  unfold del at h
  split at h
  · rename_i hc
    obtain ⟨l₁, hu, h⟩ := Runs.bind_eq_ok.mp h
    obtain ⟨l₂, ht, h⟩ := Runs.bind_eq_ok.mp h
    obtain ⟨hb, rfl⟩ := setTimeout_ok.mp ht
    exact ⟨hc, l₁, hu, hb, (Except.ok.inj h).symm⟩
  · cases h

theorem left_belongs (hid : l.loopId ≠ 0) : (l.left fd).Belongs d ↔ d ≠ fd ∧ l.Belongs d := by
  unfold Belongs left
  rw [setFd_fds]
  split
  · rename_i hd
    simp [hd, setFd, hid.symm]
  · rename_i hd
    simp [hd, setFd]

theorem left_armed (hid : l.loopId ≠ 0) (hidx : (l.fds fd).timeoutIdx = unused)
    (hslot : slot < vecSize) : (l.left fd).Armed d slot ↔ l.Armed d slot := by
  have hne : unused ≠ slot := by
    simp only [vecSize, unused] at *
    omega
  unfold Armed
  rw [left_belongs hid]
  unfold left
  rw [setFd_fds]
  by_cases hd : d = fd
  · simp [hd, hidx, hne]
  · simp [hd]

theorem Core.left (h : l.Core) (hidx : (l.fds fd).timeoutIdx = unused) : (l.left fd).Core := by
  have hfds (d : Nat) (hd : d ≠ fd) : (l.left fd).fds d = l.fds d := by
    unfold Loop.left
    rw [setFd_fds, if_neg hd]
  refine ⟨h.loopId, h.base, h.resolution, h.time, fun hd => ?_, fun hd => ?_, fun hd => ?_,
    fun {d slot} ha hslot => ?_, h.log⟩
  · exact h.range ((left_belongs h.loopId).mp hd).2
  · obtain ⟨hne, hd⟩ := (left_belongs h.loopId).mp hd
    rw [hfds _ hne]
    exact h.idx hd
  · obtain ⟨hne, hd⟩ := (left_belongs h.loopId).mp hd
    rw [hfds _ hne]
    exact h.callback hd
  · have hne := ((left_belongs h.loopId).mp ha.1).1
    rw [hfds _ hne]
    exact h.window ((left_armed h.loopId hidx hslot).mp ha) hslot

theorem SlotOk.left (h : l.SlotOk slot) (hid : l.loopId ≠ 0)
    (hidx : (l.fds fd).timeoutIdx = unused) (hslot : slot < vecSize) :
    (l.left fd).SlotOk slot :=
  h.congr rfl fun _ => left_armed hid hidx hslot

end

end Loop

end Canvasback.Picoev
