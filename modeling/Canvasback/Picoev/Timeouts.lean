import Canvasback.Lib.Fallible
import Canvasback.Picoev.Timers

/-!
# Handling timeouts

`picoev_handle_timeout_internal` takes the slots the clock has passed one
after the other, and the descriptors of a slot off its bits. A callback may
end or renew the timeout of its own descriptor. Then every timeout that is due
is handled once and no other, none before its deadline, none later than one
slot's time after it.
-/

namespace Canvasback.Picoev

open TwoLevel

namespace Loop

section
variable {κ ω : Type}

/-- A callback for `fd` that leaves the timeouts of other descriptors alone. -/
structure Polite (fd : Nat) (l l' : Loop κ ω) : Prop extends l.Same l' where
  core : l.Core → l'.Core
  slots : l.Core → slot < vecSize → l.SlotOk slot → l'.SlotOk slot
  row : l'.rows l.baseIdx = l.rows l.baseIdx
  others : d ≠ fd → slot < vecSize → l.Armed d slot → l'.Armed d slot
  /-- A timeout that is new is not due yet. -/
  fresh : slot < vecSize → l'.Armed d slot → l.Armed d slot ∨ l.now < l.due slot

/-- The state just before the callback of a timeout. -/
def taken (l : Loop κ ω) (fd : Nat) : Loop κ ω :=
  (l.setFd fd { l.fds fd with timeoutIdx := unused }).logged fd .timeout

/-- A timeout is about to be handled. -/
structure Firing (l : Loop κ ω) (fd : Nat) (callback : κ) : Prop where
  core : l.Core
  time : l.baseTime + l.resolution ≤ l.now
  armed : l.Armed fd l.baseIdx
  callback : (l.fds fd).callback = some callback
  slots : slot < vecSize → slot ≠ l.baseIdx → l.SlotOk slot

/-- From one state to another only timeouts have been handled, those of
`fired`. -/
structure Pass (l₀ l : Loop κ ω) (fired : List Nat) : Prop where
  maxFd : l.maxFd = l₀.maxFd
  loopId : l.loopId = l₀.loopId
  resolution : l.resolution = l₀.resolution
  now : l.now = l₀.now
  log : ∃ es, l.log = l₀.log ++ es ∧ es.map Called.fd = fired ∧
    ∀ e ∈ es, e.revents = .timeout ∧ e.time = l₀.now
  nodup : fired.Nodup
  wasDue : fd ∈ fired → ∃ slot < vecSize, l₀.Armed fd slot ∧ l₀.due slot ≤ l₀.now
  done : fd ∈ fired → slot < vecSize → l.Armed fd slot → l₀.now < l.due slot
  rest : slot < vecSize → l₀.Armed fd slot → l₀.due slot ≤ l₀.now → fd ∉ fired →
    l.Armed fd slot ∧ l.due slot = l₀.due slot
  back : slot < vecSize → l.Armed fd slot → l.due slot ≤ l₀.now →
    l₀.Armed fd slot ∧ l₀.due slot = l.due slot

/-- Within a slot, found as `r`: the bits below `m` are handled, and so many
words and marks of it cleared. -/
structure Mid (I : Loop κ ω → Prop) (l₀ : Loop κ ω) (slot : Nat) (t : Int) (r : Rows 16)
    (words marks m : Nat) (l : Loop κ ω) : Prop where
  keeps : I l
  core : l.Core
  base : l.baseIdx = slot
  baseTime : l.baseTime = t
  time : l.baseTime + l.resolution ≤ l.now
  slots : s < vecSize → s ≠ slot → l.SlotOk s
  pass : ∃ fired, Pass l₀ l fired
  pending : l.Armed fd slot ↔ m ≤ fd ∧ r.Mem fd
  words : (l.rows slot).words j = if j < words then 0#16 else r.words j
  summary : (l.rows slot).summary i = if i < marks then 0#16 else r.summary i

/-- What handling timeouts comes to. -/
structure Handled (l l' : Loop κ ω) : Prop where
  ok : l'.Ok
  fired : ∃ es, l'.log = l.log ++ es ∧ (es.map Called.fd).Nodup ∧
    (∀ e ∈ es, e.revents = .timeout ∧ e.time = l.now ∧ e.deadline < l.now) ∧
    ∀ fd, fd ∈ es.map Called.fd ↔ ∃ slot < vecSize, l.Armed fd slot ∧ l.due slot ≤ l.now
  waiting : slot < vecSize → l'.Armed fd slot → l'.now < (l'.fds fd).deadline + l'.resolution
  now : l'.now = l.now

/-- What picoev does to the wheel by itself keeps the property. -/
structure OffWheel (I : Loop κ ω → Prop) : Prop where
  clearWord : I l → I (l.setRows slot ((l.rows slot).setWord j 0))
  clearSummary : I l → I (l.setRows slot ((l.rows slot).setSummary i 0))
  advance : I l → I l.advance

/-- What is done of word `j` of a slot, below place `n`. -/
def fireBits (call : κ → Nat → Revents → Loop κ ω → Except Fault (Loop κ ω)) (slot j n : Nat)
    (l : Loop κ ω) : Except Fault (Loop κ ω) :=
  ((List.range n).filter ((l.rows slot).words j).getMsbD).foldlM
    (fun l k => l.fire call (j * 16 + k)) l

/-- What is done of the words of mark `i`, below place `n`. -/
def fireMarks (call : κ → Nat → Revents → Loop κ ω → Except Fault (Loop κ ω)) (slot i n : Nat)
    (l : Loop κ ω) : Except Fault (Loop κ ω) :=
  ((List.range n).filter ((l.rows slot).summary i).getMsbD).foldlM
    (fun l j => fireWord call slot (i * 16 + j) l) l

/-- What is done of the slot, below mark `n`. -/
def fireGroups (call : κ → Nat → Revents → Loop κ ω → Except Fault (Loop κ ω)) (n : Nat)
    (l : Loop κ ω) : Except Fault (Loop κ ω) :=
  (List.range n).foldlM (fun l' i => fireWords call l.baseIdx i l') l

/-- In the slot `l` is at, all is done in this state that is below `fd`. -/
def ComesUp (call : κ → Nat → Revents → Loop κ ω → Except Fault (Loop κ ω)) (l : Loop κ ω)
    (fd : Nat) (mid : Loop κ ω) : Prop :=
  ∃ words word, l.fireGroups call (fd / 256) = .ok words ∧
    words.fireMarks call l.baseIdx (fd / 256) (fd / 16 % 16) = .ok word ∧
    word.fireBits call l.baseIdx (fd / 16) (fd % 16) = .ok mid

/-- Handling timeouts from `l` on takes the wheel this far. -/
inductive Expiring (call : κ → Nat → Revents → Loop κ ω → Except Fault (Loop κ ω))
    (l : Loop κ ω) : Loop κ ω → Prop
  | start : Expiring call l l
  | slot {mid next : Loop κ ω} (h : Expiring call l mid)
      (hdue : mid.baseTime ≤ mid.now - mid.resolution) (hs : mid.fireSlot call = .ok next) :
      Expiring call l next.advance

/-- Handling timeouts from `l` on comes to that of `fd` in this state. -/
def Expires (call : κ → Nat → Revents → Loop κ ω → Except Fault (Loop κ ω)) (l : Loop κ ω)
    (fd : Nat) (mid : Loop κ ω) : Prop :=
  ∃ slot, Expiring call l slot ∧ slot.baseTime ≤ slot.now - slot.resolution ∧
    slot.ComesUp call fd mid

/-- The callback of a timeout fails that is handled from `l` on. -/
def TimeoutFails (call : κ → Nat → Revents → Loop κ ω → Except Fault (Loop κ ω)) (l : Loop κ ω)
    (e : Fault) : Prop :=
  ∃ mid fd handler, l.Expires call fd mid ∧ mid.Firing fd handler ∧
    call handler fd .timeout (mid.taken fd) = .error e

/-- Callbacks of timeouts handled from `l₀` on that are polite where they come
back and keep `I`. -/
def Considerate (call : κ → Nat → Revents → Loop κ ω → Except Fault (Loop κ ω)) (l₀ : Loop κ ω)
    (I : Loop κ ω → Prop) (E : Fault → Prop) : Prop :=
  ∀ callback fd l, l₀.Expires call fd l → I l → l.Firing fd callback →
    ComesTo (call callback fd .timeout (l.taken fd))
      (fun l' => (l.taken fd).Polite fd l' ∧ I l') E

variable {l₀ l l' : Loop κ ω} {fd d slot m words marks : Nat} {t : Int} {r : Rows 16}
  {fired : List Nat}
  {call : κ → Nat → Revents → Loop κ ω → Except Fault (Loop κ ω)} {I : Loop κ ω → Prop}
  {E : Fault → Prop} {handler : κ}

theorem OffWheel.and {I' : Loop κ ω → Prop} (h : OffWheel I) (h' : OffWheel I') :
    OffWheel fun l : Loop κ ω => I l ∧ I' l :=
  ⟨fun hl => ⟨h.clearWord hl.1, h'.clearWord hl.2⟩,
    fun hl => ⟨h.clearSummary hl.1, h'.clearSummary hl.2⟩,
    fun hl => ⟨h.advance hl.1, h'.advance hl.2⟩⟩

-- ---------------------------------------------------------------------------
-- One timeout
-- ---------------------------------------------------------------------------

theorem due_base (l : Loop κ ω) : l.due l.baseIdx = l.baseTime + l.resolution := by
  have hb : (l.baseIdx + vecSize - l.baseIdx) % vecSize = 0 := by
    simp only [vecSize]
    omega
  rw [due, hb]
  push_cast
  ring

theorem taken_fds : (l.taken fd).fds d =
    if d = fd then { l.fds fd with timeoutIdx := unused } else l.fds d := setFd_fds _

theorem taken_belongs : (l.taken fd).Belongs d ↔ l.Belongs d := by
  unfold Belongs
  rw [taken_fds]
  split
  · rename_i hd
    rw [hd]
    rfl
  · rfl

theorem taken_armed (hslot : slot < vecSize) :
    (l.taken fd).Armed d slot ↔ d ≠ fd ∧ l.Armed d slot := by
  have hne : unused ≠ slot := by
    simp only [vecSize, unused] at *
    omega
  unfold Armed
  rw [taken_belongs, taken_fds]
  by_cases hd : d = fd
  · simp [hd, hne]
  · simp [hd]

theorem taken_due : (l.taken fd).due slot = l.due slot := rfl

theorem taken_log : (l.taken fd).log =
    l.log ++ [⟨fd, .timeout, l.now, (l.fds fd).deadline⟩] := by
  have hself : ((l.setFd fd { l.fds fd with timeoutIdx := unused }).fds fd).deadline =
      (l.fds fd).deadline := by rw [setFd_fds, if_pos rfl]
  rw [← hself]
  rfl

theorem Core.taken (h : l.Core) (hearly : (l.fds fd).deadline < l.now) : (l.taken fd).Core := by
  have hfds (d : Nat) : ((l.taken fd).fds d).callback = (l.fds d).callback ∧
      ((l.taken fd).fds d).deadline = (l.fds d).deadline := by
    rw [taken_fds]
    split
    · rename_i hd
      rw [hd]
      exact ⟨rfl, rfl⟩
    · exact ⟨rfl, rfl⟩
  refine ⟨h.loopId, h.base, h.resolution, h.time, fun hd => h.range (taken_belongs.mp hd),
    fun hd => ?_, fun hd => ?_, fun ha hslot => ?_, fun e he ht => ?_⟩
  · rw [taken_fds]
    split
    · exact .inr rfl
    · exact h.idx (taken_belongs.mp hd)
  · rw [(hfds _).1]
    exact h.callback (taken_belongs.mp hd)
  · rw [(hfds _).2]
    exact h.window ((taken_armed hslot).mp ha).2 hslot
  · rw [taken_log] at he
    rcases List.mem_append.mp he with he | he
    · exact h.log e he ht
    · obtain rfl := List.mem_singleton.mp he
      exact hearly

theorem Pass.fire (h : Pass l₀ l fired) (hslot : slot < vecSize) (ha : l.Armed fd slot)
    (hdue : l.due slot ≤ l.now) (hp : (l.taken fd).Polite fd l') :
    Pass l₀ l' (fired ++ [fd]) := by
  have hnow := h.now
  have hnew : fd ∉ fired := by
    intro hin
    have := h.done hin hslot ha
    omega
  have hdues (s : Nat) : l'.due s = l.due s :=
    (due_congr hp.baseIdx hp.baseTime hp.resolution).trans taken_due
  -- who waits after the callback and is due was waiting before it
  have hold {d s : Nat} (hs : s < vecSize) (hd : l'.Armed d s) :
      d ≠ fd ∧ l.Armed d s ∨ l₀.now < l.due s := by
    rcases hp.fresh hs hd with hd | hlt
    · exact .inl ((taken_armed hs).mp hd)
    · exact .inr (hnow ▸ hlt)
  obtain ⟨es, hes, hmap, hall⟩ := h.log
  refine ⟨hp.maxFd.trans h.maxFd, hp.loopId.trans h.loopId, hp.resolution.trans h.resolution,
    hp.now.trans hnow, ?_, ?_, fun hin => ?_, fun {d s} hin hs hd => ?_,
    fun {s d} hs hd hle hnot => ?_, fun {s d} hs hd hle => ?_⟩
  · refine ⟨es ++ [⟨fd, .timeout, l.now, (l.fds fd).deadline⟩], ?_, by simp [hmap], ?_⟩
    · rw [hp.log, taken_log, hes, List.append_assoc]
    · intro e he
      rcases List.mem_append.mp he with he | he
      · exact hall e he
      · obtain rfl := List.mem_singleton.mp he
        exact ⟨rfl, hnow⟩
  · rw [List.nodup_append]
    refine ⟨h.nodup, by simp, ?_⟩
    rintro a ha b hb rfl
    exact hnew (List.mem_singleton.mp hb ▸ ha)
  · rcases List.mem_append.mp hin with hin | hin
    · exact h.wasDue hin
    · obtain rfl := List.mem_singleton.mp hin
      obtain ⟨ha₀, hd₀⟩ := h.back hslot ha (by omega)
      exact ⟨slot, hslot, ha₀, by omega⟩
  · rw [hdues]
    rcases hold hs hd with ⟨hne, hd⟩ | hlt
    · refine h.done ?_ hs hd
      rcases List.mem_append.mp hin with hin | hin
      · exact hin
      · exact absurd (List.mem_singleton.mp hin) hne
    · exact hlt
  · rw [List.mem_append, List.mem_singleton, not_or] at hnot
    obtain ⟨hd', hdue'⟩ := h.rest hs hd hle hnot.1
    refine ⟨hp.others hnot.2 hs ((taken_armed hs).mpr ⟨hnot.2, hd'⟩), ?_⟩
    rw [hdues, hdue']
  · rw [hdues] at hle ⊢
    rcases hold hs hd with ⟨-, hd⟩ | hlt
    · exact h.back hs hd hle
    · omega

theorem Firing.early (h : l.Firing fd handler) :
    l.due l.baseIdx ≤ l.now ∧ (l.fds fd).deadline < l.now := by
  have hdue : l.due l.baseIdx ≤ l.now := by
    rw [due_base]
    exact h.time
  have hwin := (h.core.window h.armed h.core.base).1
  exact ⟨hdue, by omega⟩

theorem Firing.taken_core (h : l.Firing fd handler) : (l.taken fd).Core := h.core.taken h.early.2

theorem Firing.taken_slots (h : l.Firing fd handler) (hs : slot < vecSize)
    (hne : slot ≠ l.baseIdx) : (l.taken fd).SlotOk slot := by
  refine (h.slots hs hne).congr rfl fun d => ?_
  rw [taken_armed hs]
  constructor
  · exact And.right
  · intro hd
    refine ⟨?_, hd⟩
    rintro rfl
    exact hne (hd.2.symm.trans h.armed.2)

theorem Firing.fire_eq (h : l.Firing fd handler) :
    l.fire call fd = call handler fd .timeout (l.taken fd) := by
  have hfound : ((l.setFd fd { l.fds fd with timeoutIdx := unused }).fds fd).callback =
      some handler := by
    rw [setFd_fds, if_pos rfl]
    exact h.callback
  rw [fire, if_pos h.armed.1, Loop.callback]
  simp only [hfound]
  rfl

theorem Mid.fire (hcall : Considerate call l₀ I E) (hx : l₀.Expires call m l)
    (h : Mid I l₀ slot t r words marks m l) (hm : r.Mem m) :
    ComesTo (l.fire call m) (Mid I l₀ slot t r words marks (m + 1)) E := by
  have ha : l.Armed m slot := h.pending.mpr ⟨le_rfl, hm⟩
  have hb : slot < vecSize := h.base ▸ h.core.base
  obtain ⟨callback, hcb⟩ := Option.ne_none_iff_exists'.mp (h.core.callback ha.1)
  have hfiring : l.Firing m callback :=
    ⟨h.core, h.time, h.base ▸ ha, hcb, fun hs hne => h.slots hs (h.base ▸ hne)⟩
  have hdue : l.due slot ≤ l.now := h.base ▸ hfiring.early.1
  rw [hfiring.fire_eq]
  refine (hcall callback m l hx h.keeps hfiring).mono (fun l' ⟨hp, hkeeps⟩ => ?_) fun _ he => he
  have hrow : l'.rows slot = l.rows slot := h.base ▸ hp.row
  obtain ⟨fired, hpass⟩ := h.pass
  refine ⟨hkeeps, hp.core hfiring.taken_core, hp.baseIdx.trans h.base,
    hp.baseTime.trans h.baseTime, ?_,
    fun hs hne => hp.slots hfiring.taken_core hs (hfiring.taken_slots hs (h.base ▸ hne)),
    ⟨_, hpass.fire hb ha hdue hp⟩, fun {d} => ?_, fun {j} => ?_, fun {i} => ?_⟩
  · rw [hp.baseTime, hp.resolution, hp.now]
    exact h.time
  · constructor
    · intro hd
      have hd : (l.taken m).Armed d slot := by
        rcases hp.fresh hb hd with hd | hlt
        · exact hd
        · have hlt : l.now < l.due slot := hlt
          omega
      obtain ⟨hne, hd⟩ := (taken_armed hb).mp hd
      obtain ⟨hle, hmem⟩ := h.pending.mp hd
      exact ⟨by omega, hmem⟩
    · rintro ⟨hle, hmem⟩
      have hne : d ≠ m := by omega
      exact hp.others hne hb ((taken_armed hb).mpr ⟨hne, h.pending.mpr ⟨by omega, hmem⟩⟩)
  · rw [hrow]
    exact h.words
  · rw [hrow]
    exact h.summary

-- ---------------------------------------------------------------------------
-- A slot
-- ---------------------------------------------------------------------------

/-- Where no bit is set nothing is to be done. -/
theorem Mid.skip (h : Mid I l₀ slot t r words marks m l) (hn : m ≤ n)
    (hm : ∀ d, m ≤ d → d < n → ¬ r.Mem d) : Mid I l₀ slot t r words marks n l := by
  refine { h with pending := fun {d} => ?_ }
  rw [h.pending]
  constructor
  · rintro ⟨hle, hmem⟩
    refine ⟨?_, hmem⟩
    by_contra hlt
    exact hm d hle (by omega) hmem
  · rintro ⟨hle, hmem⟩
    exact ⟨by omega, hmem⟩

theorem Mid.setRow (h : Mid I l₀ slot t r words marks m l) (row : Rows 16)
    (hkeeps : I (l.setRows slot row))
    (hw : ∀ j, row.words j = if j < words' then 0#16 else r.words j)
    (hs : ∀ i, row.summary i = if i < marks' then 0#16 else r.summary i) :
    Mid I l₀ slot t r words' marks' m (l.setRows slot row) := by
  have hself : (l.setRows slot row).rows slot = row := Function.update_self ..
  obtain ⟨fired, hpass⟩ := h.pass
  refine ⟨hkeeps, ⟨h.core.loopId, h.core.base, h.core.resolution, h.core.time,
    h.core.range, h.core.idx, h.core.callback, h.core.window, h.core.log⟩, h.base, h.baseTime,
    h.time, fun {s} hslot hne => ?_,
    ⟨fired, hpass.maxFd, hpass.loopId, hpass.resolution, hpass.now, hpass.log, hpass.nodup,
      hpass.wasDue, hpass.done, hpass.rest, hpass.back⟩, h.pending, fun {j} => ?_, fun {i} => ?_⟩
  · have hother : (l.setRows slot row).rows s = l.rows s := Function.update_of_ne hne _ _
    exact (h.slots hslot hne).congr hother fun _ => Iff.rfl
  · rw [hself]
    exact hw j
  · rw [hself]
    exact hs i

theorem mem_word {i j : Nat} (hi : i < 16) : r.Mem (j * 16 + i) ↔ (r.words j).getMsbD i = true := by
  rw [Rows.Mem, show (j * 16 + i) / 16 = j by omega, show (j * 16 + i) % 16 = i by omega]

theorem Mid.fireBits (hcall : Considerate call l₀ I E) (hn : n ≤ 16)
    (hx : ∀ k < n, ∀ mid, l.fireBits call slot j k = .ok mid → l₀.Expires call (j * 16 + k) mid)
    (h : Mid I l₀ slot t r j marks (j * 16) l) :
    ComesTo (l.fireBits call slot j n) (Mid I l₀ slot t r j marks (j * 16 + n)) E := by
  have hword : (l.rows slot).words j = r.words j := by rw [h.words, if_neg (lt_irrefl j)]
  refine ComesTo.foldlM_filter (P := fun k => Mid I l₀ slot t r j marks (j * 16 + k))
    (fun k hk hp mid hmid => ?_) (fun k hk hp mid hrun hmid => ?_) h
  · refine hmid.skip (by omega) fun d hd hlt hmem => ?_
    obtain rfl : d = j * 16 + k := by omega
    rw [mem_word (by omega), ← hword, hp] at hmem
    cases hmem
  · exact hmid.fire hcall (hx k hk mid hrun) ((mem_word (by omega)).mpr (hword ▸ hp))

theorem Mid.fireWord (hI : OffWheel I) (hcall : Considerate call l₀ I E)
    (hx : ∀ k < 16, ∀ mid, l.fireBits call slot j k = .ok mid → l₀.Expires call (j * 16 + k) mid)
    (h : Mid I l₀ slot t r j marks (j * 16) l) (hv : r.words j ≠ 0#16) :
    ComesTo (Loop.fireWord call slot j l)
      (Mid I l₀ slot t r (j + 1) marks ((j + 1) * 16)) E := by
  have hword : (l.rows slot).words j = r.words j := by rw [h.words, if_neg (lt_irrefl j)]
  have hscan := h.fireBits hcall (Nat.le_refl 16) hx
  unfold Loop.fireWord
  simp only [hword, hv, if_false, scanWord_places]
  rw [Loop.fireBits, hword] at hscan
  refine hscan.map_ok fun l' hl => ?_
  rw [show (j + 1) * 16 = j * 16 + 16 by ring]
  refine hl.setRow _ (hI.clearWord hl.keeps) (fun i => ?_) fun i => ?_
  · simp only [Rows.setWord, Function.update_apply, hl.words]
    split_ifs <;> first | rfl | omega
  · exact hl.summary

/-- Words that are not marked have nothing in them. -/
theorem Mid.stepOver (hr : r.Wf) (h : Mid I l₀ slot t r j marks (j * 16) l)
    (hv : ¬ r.Marked j) : Mid I l₀ slot t r (j + 1) marks ((j + 1) * 16) l := by
  have hzero : r.words j = 0#16 := by
    by_contra hne
    exact hv (hr.marked.mpr hne)
  have hskip := h.skip (n := (j + 1) * 16) (by omega) fun d hd hlt hmem => by
    obtain ⟨i, hi, rfl⟩ : ∃ i < 16, d = j * 16 + i := ⟨d - j * 16, by omega, by omega⟩
    rw [mem_word hi, hzero, BitVec.getMsbD_zero] at hmem
    cases hmem
  refine { hskip with words := fun {k} => ?_ }
  rw [h.words]
  split_ifs
  · rfl
  · omega
  · obtain rfl : k = j := by omega
    exact hzero
  · rfl

theorem Mid.fireMarks (hI : OffWheel I) (hcall : Considerate call l₀ I E) (hr : r.Wf)
    (hn : n ≤ 16)
    (hx : ∀ j < n, ∀ word, l.fireMarks call slot i j = .ok word → ∀ k < 16, ∀ mid,
      word.fireBits call slot (i * 16 + j) k = .ok mid →
        l₀.Expires call ((i * 16 + j) * 16 + k) mid)
    (h : Mid I l₀ slot t r (i * 16) i (i * 256) l) :
    ComesTo (l.fireMarks call slot i n)
      (Mid I l₀ slot t r (i * 16 + n) i ((i * 16 + n) * 16)) E := by
  have hsummary : (l.rows slot).summary i = r.summary i := by rw [h.summary, if_neg (lt_irrefl i)]
  have hmarked {j : Nat} (hj : j < 16) :
      r.Marked (i * 16 + j) ↔ (r.summary i).getMsbD j = true := by
    rw [Rows.Marked, show (i * 16 + j) / 16 = i by omega, show (i * 16 + j) % 16 = j by omega]
  refine ComesTo.foldlM_filter
    (P := fun j => Mid I l₀ slot t r (i * 16 + j) i ((i * 16 + j) * 16))
    (fun j hj hp mid hmid => ?_) (fun j hj hp word hrun hword => ?_)
    (by rw [Nat.add_zero, Nat.mul_assoc]; exact h)
  · refine hmid.stepOver hr fun hm => ?_
    have hbit := (hmarked (by omega)).mp hm
    rw [← hsummary, hp] at hbit
    cases hbit
  · exact hword.fireWord hI hcall (hx j hj word hrun)
      (hr.marked.mp ((hmarked (by omega)).mpr (hsummary ▸ hp)))

theorem Mid.fireWords (hI : OffWheel I) (hcall : Considerate call l₀ I E) (hr : r.Wf)
    (hx : ∀ j < 16, ∀ word, l.fireMarks call slot i j = .ok word → ∀ k < 16, ∀ mid,
      word.fireBits call slot (i * 16 + j) k = .ok mid →
        l₀.Expires call ((i * 16 + j) * 16 + k) mid)
    (h : Mid I l₀ slot t r (i * 16) i (i * 256) l) : ComesTo (Loop.fireWords call slot i l)
      (Mid I l₀ slot t r ((i + 1) * 16) (i + 1) ((i + 1) * 256)) E := by
  have hsummary : (l.rows slot).summary i = r.summary i := by rw [h.summary, if_neg (lt_irrefl i)]
  have hscan := h.fireMarks hI hcall hr (Nat.le_refl 16) hx
  have hend : (i * 16 + 16) * 16 = (i + 1) * 256 := by ring
  rw [Loop.fireMarks, hsummary] at hscan
  rw [show (i + 1) * 16 = i * 16 + 16 by ring, ← hend]
  unfold Loop.fireWords
  simp only [hsummary]
  split
  · rename_i hv
    have hnone : places (r.summary i) = [] := by simp [places, hv]
    rw [show (List.range 16).filter (r.summary i).getMsbD = [] from hnone] at hscan
    have hl : Mid I l₀ slot t r (i * 16 + 16) i ((i * 16 + 16) * 16) l := hscan.of_ok rfl
    refine ComesTo.ok { hl with summary := fun {k} => ?_ }
    rw [hl.summary]
    split_ifs
    · rfl
    · omega
    · obtain rfl : k = i := by omega
      exact hv
    · rfl
  · rw [scanWord_places]
    refine hscan.map_ok fun l' hl =>
      hl.setRow _ (hI.clearSummary hl.keeps) (fun k => hl.words) fun k => ?_
    simp only [Rows.setSummary, Function.update_apply, hl.summary]
    split_ifs <;> first | rfl | omega

/-- The slot before anything of it is done. -/
theorem Mid.begin (h : l.Ok) (hl : I l) (htime : l.baseTime + l.resolution ≤ l.now)
    (hp : Pass l₀ l fired) : Mid I l₀ l.baseIdx l.baseTime (l.rows l.baseIdx) 0 0 0 l :=
  ⟨hl, h.toCore, rfl, rfl, htime, fun hs _ => h.slots _ hs, ⟨fired, hp⟩,
    by simp [(h.slots _ h.base).mem], by simp, by simp⟩

theorem ComesUp.of_parts {i j k : Nat} {words word mid : Loop κ ω} (hj : j < 16) (hk : k < 16)
    (hwords : l.fireGroups call i = .ok words)
    (hword : words.fireMarks call l.baseIdx i j = .ok word)
    (hbits : word.fireBits call l.baseIdx (i * 16 + j) k = .ok mid) :
    l.ComesUp call ((i * 16 + j) * 16 + k) mid := by
  have hgroup : ((i * 16 + j) * 16 + k) / 256 = i := by omega
  have hplace : ((i * 16 + j) * 16 + k) / 16 = i * 16 + j := by omega
  refine ⟨words, word, ?_, ?_, ?_⟩
  · rw [hgroup]
    exact hwords
  · rw [hgroup, hplace, show (i * 16 + j) % 16 = j by omega]
    exact hword
  · rw [hplace, show ((i * 16 + j) * 16 + k) % 16 = k by omega]
    exact hbits

theorem Mid.fireGroups (hI : OffWheel I) (hcall : Considerate call l₀ I E) (hr : r.Wf)
    (hx : ∀ fd mid, l.ComesUp call fd mid → l₀.Expires call fd mid)
    (h : Mid I l₀ l.baseIdx t r 0 0 0 l) :
    ComesTo (l.fireGroups call n) (Mid I l₀ l.baseIdx t r (n * 16) n (n * 256)) E := by
  refine ComesTo.foldlM_range
    (P := fun i => Mid I l₀ l.baseIdx t r (i * 16) i (i * 256))
    (fun i _ words hwords hmid => hmid.fireWords hI hcall hr ?_) (by simpa using h)
  exact fun j hj word hword k hk mid hbits => hx _ mid (.of_parts hj hk hwords hword hbits)

theorem maxFd_le (n : Nat) : n ≤ timeoutVecOfVecSize n * 256 := by
  simp only [timeoutVecOfVecSize, timeoutVecSize, rndUp]
  omega

/-- Nobody waits in the slot any more, and its bits are out. -/
structure Passed (I : Loop κ ω → Prop) (l₀ : Loop κ ω) (slot : Nat) (t : Int) (l : Loop κ ω) :
    Prop where
  keeps : I l
  ok : l.Ok
  base : l.baseIdx = slot
  baseTime : l.baseTime = t
  time : l.baseTime + l.resolution ≤ l.now
  pass : ∃ fired, Pass l₀ l fired
  free : ∀ fd, ¬ l.Armed fd slot

theorem fireSlot_passed (hI : OffWheel I) (hcall : Considerate call l₀ I E) (h : l.Ok) (hl : I l)
    (htime : l.baseTime + l.resolution ≤ l.now) (hp : Pass l₀ l fired)
    (hx : ∀ fd mid, l.ComesUp call fd mid → l₀.Expires call fd mid) :
    ComesTo (l.fireSlot call) (Passed I l₀ l.baseIdx l.baseTime) E := by
  have hok := h.slots _ h.base
  have hscan : ComesTo (l.fireSlot call) _ E :=
    (Mid.begin h hl htime hp).fireGroups hI hcall hok.wf hx
  refine hscan.mono (fun l' hl => ?_) fun _ he => he
  have hmax := maxFd_le l.maxFd
  -- every descriptor lies in the words scanned
  have hbound {fd : Nat} (hm : (l.rows l.baseIdx).Mem fd) :
      fd < timeoutVecOfVecSize l.maxFd * 256 := by
    have := h.range ((hok.mem fd).mp hm).1
    omega
  have hfree (fd : Nat) : ¬ l'.Armed fd l.baseIdx := by
    rw [hl.pending]
    rintro ⟨hle, hm⟩
    have := hbound hm
    omega
  have hwords (j : Nat) : (l'.rows l.baseIdx).words j = 0#16 := by
    rw [hl.words]
    split
    · rfl
    · by_contra hne
      obtain ⟨i, hi, hbit⟩ := ne_zero_iff.mp hne
      have := hbound ((mem_word hi).mpr hbit)
      omega
  have hmarks (j : Nat) : ¬ (l'.rows l.baseIdx).Marked j := by
    rw [Rows.Marked, hl.summary]
    split
    · simp [BitVec.getMsbD_zero]
    · intro hm
      have hm : (l.rows l.baseIdx).Marked j := hm
      obtain ⟨i, hi, hbit⟩ := ne_zero_iff.mp (hok.wf.marked.mp hm)
      have := hbound ((mem_word hi).mpr hbit)
      omega
  refine ⟨hl.keeps, ⟨hl.core, fun s hs => ?_⟩, hl.base, hl.baseTime, hl.time, hl.pass, hfree⟩
  by_cases hs' : s = l.baseIdx
  · subst hs'
    refine ⟨⟨fun {j} => ?_⟩, fun fd => ?_⟩
    · simp [hmarks j, hwords j]
    · have hno : ¬ (l'.rows l.baseIdx).Mem fd := by simp [Rows.Mem, hwords]
      simp [hno, hfree fd]
  · exact hl.slots hs hs'

-- ---------------------------------------------------------------------------
-- The wheel
-- ---------------------------------------------------------------------------

theorem due_advance (h : l.Core) (hslot : slot < vecSize) (hne : slot ≠ l.baseIdx) :
    l.advance.due slot = l.due slot := by
  have hb := h.base
  have hback : (slot + vecSize - l.baseIdx) % vecSize =
      (slot + vecSize - (l.baseIdx + 1) % vecSize) % vecSize + 1 := by
    simp only [vecSize] at *
    omega
  simp only [due, advance, hback]
  push_cast
  ring

theorem Passed.advance (h : Passed I l₀ slot t l) :
    l.advance.Ok ∧ ∃ fired, Pass l₀ l.advance fired := by
  obtain ⟨fired, hp⟩ := h.pass
  have hcore := h.ok.toCore
  have hdue {fd s : Nat} (hs : s < vecSize) (ha : l.Armed fd s) : l.advance.due s = l.due s := by
    refine due_advance hcore hs ?_
    rintro rfl
    exact h.free _ (h.base ▸ ha)
  refine ⟨⟨⟨hcore.loopId, Nat.mod_lt _ (by decide), hcore.resolution, h.time, hcore.range, hcore.idx,
    hcore.callback, fun ha hs => ?_, hcore.log⟩, fun s hs => ?_⟩, fired, hp.maxFd, hp.loopId,
    hp.resolution, hp.now, hp.log, hp.nodup, hp.wasDue, fun hin hs ha => ?_,
    fun hs ha hle hnot => ?_, fun hs ha hle => ?_⟩
  · rw [hdue hs ha]
    exact hcore.window ha hs
  · exact (h.ok.slots s hs).congr rfl fun _ => Iff.rfl
  · rw [hdue hs ha]
    exact hp.done hin hs ha
  · obtain ⟨ha', hd⟩ := hp.rest hs ha hle hnot
    exact ⟨ha', (hdue hs ha').trans hd⟩
  · rw [hdue hs ha] at hle ⊢
    exact hp.back hs ha hle

/-- What is left when the wheel has caught up with the clock. -/
theorem Pass.handled (h : l.Ok) (hp : Pass l₀ l fired)
    (htime : l.now - l.resolution < l.baseTime) : l₀.Handled l := by
  have hres := h.resolution
  have hlater (s : Nat) : l.now < l.due s := by
    have hnn : 0 ≤ (((s + vecSize - l.baseIdx) % vecSize : Nat) : Int) * l.resolution :=
      mul_nonneg (Int.natCast_nonneg _) hres.le
    rw [due]
    push_cast at hnn ⊢
    linarith
  obtain ⟨es, hlog, hmap, hall⟩ := hp.log
  refine ⟨h, ⟨es, hlog, by rw [hmap]; exact hp.nodup, fun e he => ?_, fun fd => ?_⟩,
    fun {slot fd} hs ha => ?_, hp.now⟩
  · obtain ⟨ht, hn⟩ := hall e he
    refine ⟨ht, hn, ?_⟩
    rw [← hn]
    exact h.log e (by rw [hlog]; exact List.mem_append_right _ he) ht
  · rw [hmap]
    constructor
    · exact hp.wasDue
    · rintro ⟨s, hs, ha, hle⟩
      by_contra hnot
      obtain ⟨-, hd⟩ := hp.rest hs ha hle hnot
      have := hlater s
      have := hp.now
      omega
  · have := (h.window ha hs).2
    linarith [hlater slot]

theorem Pass.refl (l : Loop κ ω) : Pass l l [] :=
  ⟨rfl, rfl, rfl, rfl, ⟨[], by simp, rfl, by simp⟩, List.nodup_nil, by simp, by simp,
    fun _ ha _ _ => ⟨ha, rfl⟩, fun _ ha _ => ⟨ha, rfl⟩⟩

/-- A slot whose time is over. -/
theorem Expiring.fireSlot (hI : OffWheel I) (hcall : Considerate call l₀ I E) (h : l.Ok) (hl : I l)
    (hp : Pass l₀ l fired) (hpath : Expiring call l₀ l)
    (hdue : l.baseTime ≤ l.now - l.resolution) :
    ComesTo (l.fireSlot call)
      (fun l' => Passed I l₀ l.baseIdx l.baseTime l' ∧ Expiring call l₀ l'.advance) E :=
  ((fireSlot_passed hI hcall h hl (by linarith) hp fun _ _ hup => ⟨l, hpath, hdue, hup⟩).and
    fun _ hrun => hpath.slot hdue hrun).mono (fun _ hl' => hl'.symm) fun _ he => he

theorem handleTimeout_pass {turns : Nat} (hI : OffWheel I) (hcall : Considerate call l₀ I E)
    (h : l.Ok) (hl : I l) (hp : Pass l₀ l fired) (hpath : Expiring call l₀ l)
    (hturns : l.now < l.baseTime + (turns + 1) * l.resolution) :
    ComesTo (handleTimeout call turns l) (fun l' => l₀.Handled l' ∧ I l') E := by
  induction turns generalizing l fired with
  | zero =>
    rw [handleTimeout, if_neg (by push_cast at hturns; linarith)]
    exact .ok ⟨hp.handled h (by push_cast at hturns; linarith), hl⟩
  | succ turns ih =>
    rw [handleTimeout]
    split
    · rename_i hdue
      refine (hpath.fireSlot hI hcall h hl hp hdue).bind fun l' ⟨hl', hpath'⟩ => ?_
      obtain ⟨hok, fired', hp'⟩ := hl'.advance
      refine ih hok (hI.advance hl'.keeps) hp' hpath' ?_
      have hres : l'.resolution = l.resolution := hp'.resolution.trans hp.resolution.symm
      have hnow : l'.now = l.now := hp'.now.trans hp.now.symm
      show l'.now < l'.baseTime + l'.resolution + (turns + 1) * l'.resolution
      rw [hnow, hl'.baseTime, hres]
      push_cast at hturns
      linarith
    · exact .ok ⟨hp.handled h (by linarith), hl⟩

/-- **Timeouts.** Every timeout that is due is handled once and no other. -/
theorem handleTimeout_handled {turns : Nat} (hI : OffWheel I) (hcall : Considerate call l I E)
    (h : l.Ok) (hl : I l) (hturns : l.now < l.baseTime + (turns + 1) * l.resolution) :
    ComesTo (handleTimeout call turns l) (fun l' => l.Handled l' ∧ I l') E :=
  handleTimeout_pass hI hcall h hl (.refl l) .start hturns

/-- What holds where a slot begins. -/
theorem Expiring.keeps (hI : OffWheel I) (hcall : Considerate call l₀ I E) (h : l₀.Ok) (hl : I l₀)
    (hpath : Expiring call l₀ l) : l.Ok ∧ I l ∧ ∃ fired, Pass l₀ l fired := by
  induction hpath with
  | start => exact ⟨h, hl, [], .refl l₀⟩
  | slot hpath hdue hs ih =>
    obtain ⟨hok, hkeeps, fired, hp⟩ := ih
    obtain ⟨hpassed, -⟩ := (hpath.fireSlot hI hcall hok hkeeps hp hdue).of_ok hs
    obtain ⟨hok', hp'⟩ := hpassed.advance
    exact ⟨hok', hI.advance hpassed.keeps, hp'⟩

/-- And where a timeout comes up. -/
theorem Expires.keeps (hI : OffWheel I) (hcall : Considerate call l₀ I E) (h : l₀.Ok) (hl : I l₀)
    (hx : l₀.Expires call fd l) : I l := by
  obtain ⟨slot, hpath, hdue, words, word, hwords, hword, hbits⟩ := hx
  obtain ⟨hok, hkeeps, fired, hp⟩ := hpath.keeps hI hcall h hl
  have hwf := (hok.slots _ hok.base).wf
  have hup (fd : Nat) (mid : Loop κ ω) (hmid : slot.ComesUp call fd mid) :
      l₀.Expires call fd mid := ⟨slot, hpath, hdue, hmid⟩
  have hplace : fd / 256 * 16 + fd / 16 % 16 = fd / 16 := by omega
  have hmwords := ((Mid.begin hok hkeeps (by linarith) hp).fireGroups hI hcall hwf hup).of_ok hwords
  have hmword := (hmwords.fireMarks hI hcall hwf (by omega) fun j hj word hword k hk mid hbits =>
    hup _ mid (.of_parts (by omega) hk hwords hword hbits)).of_ok hword
  rw [hplace] at hmword
  have hmid : ComesTo (word.fireBits call slot.baseIdx (fd / 16) (fd % 16)) _ E :=
    hmword.fireBits hcall (by omega) fun k hk mid hbits => by
      rw [← hplace] at hbits ⊢
      exact hup _ mid (.of_parts (by omega) (by omega) hwords hword hbits)
  exact (hmid.of_ok hbits).keeps

end

end Loop

end Canvasback.Picoev
