import HdmiCec.Proofs.Device.Happenings

/-! What the engine is told of the wait that it has armed. A wait ends with the first edge that it is for or
with its deadline, whichever comes first, and both count from the event or the request that armed it, however
the tasks take their turns (`Watches.through`); only the clock must not run on while the line's task has something
to do. -/
namespace HdmiCec

structure Watch where
  /-- When the event or the request was that armed it. -/
  since : Nat
  wait : Wait
  /-- When the first edge came that it is for. -/
  edge : Option Nat := none
  deriving DecidableEq, Repr

namespace Watch

def deadline? (v : Watch) : Option Nat := v.wait.timeout.map (v.since + ·)

def event? (w : Option Watch) (now : Nat) (level : Level) : Option (Nat × Engine.Call) :=
  w.bind fun v => match v.edge with
    | some time => some (time, .capture ((time - v.since) % 0x100000000))
    | none => if v.deadline? = some now then some (now, .timeout (some level)) else none

/-- Takes note of an edge. Only the first that it is for counts. -/
def note (now : Nat) (e : Option Edge) (v : Watch) : Watch :=
  if v.edge = none ∧ e.isSome = true ∧ v.wait.edge = e then { v with edge := some now } else v

end Watch

/-- The wait under way after something was done to the line or the timer at the time `time`. -/
def LineAction.watch (time : Nat) (w : Option Watch) : LineAction → Option Watch
  | .set _ => w
  | .arm v => some { since := time, wait := v }
  | .stop => none

namespace Device

namespace Turn

def event? (t : Turn) : Option (Nat × Engine.Call) :=
  match t.happening with
  | .event => t.before.event?
  | _ => none

/-- The wait under way after a turn. An event ends the one before it; a request leaves it as it is unless the
engine does something to the timer. -/
def watch (w : Option Watch) (t : Turn) : Option Watch :=
  match t.happening with
  | .event => match Watch.event? w t.before.now t.before.level with
    | some (time, c) => (t.before.engine.answer c).2.actions.foldl (LineAction.watch time) none
    | none => w
  | .control => match t.before.request? with
    | some c => (t.before.engine.answer c.call).2.actions.foldl (LineAction.watch t.before.now) w
    | none => w
  | .hold _ => w.map (Watch.note t.before.now (t.before.level.edge? t.after.level))
  | _ => w

/-- The clock runs only while the line's task has nothing to do, and stops at its deadline. -/
def prompt (t : Turn) : Bool :=
  match t.happening with
  | .pass k => !t.before.lineReady && t.before.timer.deadline?.all (t.before.now + k ≤ ·)
  | _ => true

end Turn

def watch (ts : List Turn) : Option Watch := ts.foldl Turn.watch none

def Prompt (d : Device) (hs : List Happening) : Prop := ∀ t ∈ d.turns hs, t.prompt = true

instance (d : Device) (hs : List Happening) : Decidable (d.Prompt hs) := inferInstanceAs (Decidable (∀ _ ∈ _, _))

end Device

structure Watch.Tied (x : EdgeTimer) (w : Option Watch) : Prop where
  armed : x.armed = w.map fun v => ⟨v.wait.edge, v.deadline?⟩
  start : ∀ v ∈ w, x.start = v.since

namespace Watch

variable {x : EdgeTimer} {w : Option Watch} {v : Watch} {time : Nat}

theorem Tied.foldl (h : Tied x w) (as : List LineAction) :
    Tied (as.foldl (LineAction.retime time) x) (as.foldl (LineAction.watch time) w) := by
  induction as generalizing x w with
  | nil => exact h
  | cons a as ih =>
    cases a with
    | set level => exact ih h
    | arm v =>
      refine ih ⟨rfl, fun u hu => ?_⟩
      cases hu
      rfl
    | stop => exact ih ⟨rfl, fun u hu => nomatch hu⟩

/-- A wait stands from before, or is armed anew and has seen no edge. -/
theorem mem_foldl {as : List LineAction} (h : v ∈ as.foldl (LineAction.watch time) w) :
    v ∈ w ∨ v.since = time ∧ v.edge = none := by
  induction as generalizing w with
  | nil => exact .inl h
  | cons a as ih =>
    obtain h | h := ih h
    · cases a with
      | set level => exact .inl h
      | arm u =>
        cases h
        exact .inr ⟨rfl, rfl⟩
      | stop => cases h
    · exact .inr h

theorem note_cases (now : Nat) (e : Option Edge) (v : Watch) : v.note now e = v ∨
    v.edge = none ∧ v.note now e = { v with edge := some now } := by
  unfold note
  split
  · next h => exact .inr ⟨h.1, rfl⟩
  · exact .inl rfl

end Watch

namespace Device

structure Watches (d : Device) (w : Option Watch) : Prop where
  timer : Watch.Tied d.timer w
  edgeSeen : d.edgeSeen = w.any (·.edge.isSome)
  since : ∀ v ∈ w, v.since ≤ d.now
  deadline : ∀ v ∈ w, ∀ t, v.deadline? = some t → d.now ≤ t
  edge : ∀ v ∈ w, ∀ t, v.edge = some t → t = d.now

variable {d : Device} {w : Option Watch}

theorem watches_of_stopped (h : d.timer.armed = none) (hseen : d.edgeSeen = false) : d.Watches none where
  timer := ⟨h, fun _ hv => nomatch hv⟩
  edgeSeen := hseen
  since := fun _ hv => nomatch hv
  deadline := fun _ hv => nomatch hv
  edge := fun _ hv => nomatch hv

namespace Watches

theorem deadline? (h : d.Watches w) : d.timer.deadline? = w.bind Watch.deadline? := by
  rw [EdgeTimer.deadline?, h.timer.armed]
  cases w <;> rfl

theorem waitsFor (h : d.Watches w) (e : Edge) : d.timer.waitsFor e = w.any (·.wait.edge == some e) := by
  rw [EdgeTimer.waitsFor, h.timer.armed]
  cases w <;> rfl

theorem edge_of_not_seen (h : d.Watches w) (hseen : d.edgeSeen = false) {v : Watch} (hv : v ∈ w) : v.edge = none := by
  rw [h.edgeSeen, Option.mem_def.1 hv] at hseen
  simpa using hseen

theorem event? (h : d.Watches w) : d.event? = Watch.event? w d.now d.level := by
  rw [Device.event?, h.deadline?, EdgeTimer.elapsed]
  cases w with
  | none => rw [if_neg (by simp [h.edgeSeen]), Watch.event?, Option.bind_none, Option.bind_none]
  | some v =>
    have hstart : d.timer.start = v.since := h.timer.start v rfl
    cases ht : v.edge with
    | some t =>
      have hseen : d.edgeSeen = true := by simp [h.edgeSeen, ht]
      have hnow : t = d.now := h.edge v rfl t ht
      simp [Watch.event?, hseen, ht, hstart, hnow]
    | none =>
      have hseen : ¬ d.edgeSeen = true := by simp [h.edgeSeen, ht]
      rw [if_neg hseen, Option.bind_some]
      cases hdue : v.deadline? with
      | none => simp [Watch.event?, ht, hdue]
      | some t =>
        -- The clock has not passed the deadline, so it is due exactly when it is now.
        have hle : d.now ≤ t := h.deadline v rfl t hdue
        by_cases heq : t = d.now
        · simp [Watch.event?, ht, hdue, heq]
        · have hlt : ¬ t ≤ d.now := by omega
          simp [Watch.event?, ht, hdue, heq, hlt]

/-- Every event comes at the time it counts for. -/
theorem time_of_event? (h : d.Watches w) {x : Nat × Engine.Call} (hx : Watch.event? w d.now d.level = some x) :
    x.1 = d.now := by
  obtain ⟨v, hv, hx⟩ := Option.bind_eq_some_iff.1 hx
  cases ht : v.edge with
  | some t =>
    simp only [ht, Option.some.injEq] at hx
    rw [← hx]
    exact h.edge v hv t ht
  | none =>
    simp only [ht] at hx
    split at hx
    · cases hx
      rfl
    · cases hx

theorem still (h : d.Watches w) {e : Device} (htimer : e.timer = d.timer) (hseen : e.edgeSeen = d.edgeSeen)
    (hnow : e.now = d.now) : e.Watches w where
  timer := htimer ▸ h.timer
  edgeSeen := hseen.trans h.edgeSeen
  since := hnow ▸ h.since
  deadline := hnow ▸ h.deadline
  edge := hnow ▸ h.edge

theorem acted (h : d.Watches w) (hseen : d.edgeSeen = false) {e : Device} (as : List LineAction)
    (htimer : e.timer = as.foldl (LineAction.retime d.now) d.timer) (hedge : e.edgeSeen = false) (hnow : e.now = d.now) :
    e.Watches (as.foldl (LineAction.watch d.now) w) := by
  have hfresh : ∀ v ∈ as.foldl (LineAction.watch d.now) w, v ∈ w ∨ v.since = d.now := fun v hv =>
    (Watch.mem_foldl hv).imp_right And.left
  have hnone : ∀ v ∈ as.foldl (LineAction.watch d.now) w, v.edge = none := fun v hv =>
    (Watch.mem_foldl hv).elim (h.edge_of_not_seen hseen) And.right
  refine ⟨htimer ▸ h.timer.foldl as, ?_, fun v hv => ?_, fun v hv t ht => ?_, fun v hv t ht => ?_⟩
  · rw [hedge]
    cases hw : as.foldl (LineAction.watch d.now) w with
    | none => rfl
    | some v => simp [hnone v hw]
  · rw [hnow]
    exact (hfresh v hv).elim (h.since v) Nat.le_of_eq
  · rw [hnow]
    obtain hv | hv := hfresh v hv
    · exact h.deadline v hv t ht
    · obtain ⟨k, -, rfl⟩ := Option.map_eq_some_iff.1 ht
      omega
  · rw [hnone v hv] at ht
    cases ht

theorem takeEvent_eq (h : d.Watches w) : d.takeEvent = match Watch.event? w d.now d.level with
    | some (time, c) => d.onEvent time (d.engine.answer c).2
    | none => d := by
  cases he : Watch.event? w d.now d.level with
  | none => exact takeEvent_of_none (h.event?.trans he)
  | some x => exact takeEvent_of_event? (h.event?.trans he)

theorem event (h : d.Watches w) : d.takeEvent.Watches (Turn.watch w ⟨d, .event⟩) := by
  rw [h.takeEvent_eq]
  simp only [Turn.watch]
  cases he : Watch.event? w d.now d.level with
  | none => exact h
  | some x =>
    obtain ⟨time, c⟩ := x
    obtain rfl : time = d.now := h.time_of_event? he
    obtain ⟨received, resultPending, lastResult, mailbox, notices, heq⟩ := d.onEvent_eq d.now (d.engine.answer c).2
    have hstopped : Watches { d with timer := d.timer.stop, edgeSeen := false } none :=
      watches_of_stopped rfl rfl
    dsimp only
    rw [heq]
    exact hstopped.acted rfl _ rfl rfl rfl

theorem control (h : d.Watches w) : d.takeControl.Watches (Turn.watch w ⟨d, .control⟩) := by
  cases hr : d.request? with
  | none =>
    rw [takeControl_of_none hr, Turn.watch]
    simp only [hr]
    exact h
  | some c =>
    have hseen : d.edgeSeen = false := (of_request? hr).1
    obtain ⟨result, heq⟩ := takeControl_of_request? hr
    rw [heq, absorb_eq, Turn.watch]
    simp only [hr]
    exact h.acted hseen _ rfl hseen rfl

theorem hold (h : d.Watches w) (low : Bool) : (d.hold low).Watches (Turn.watch w ⟨d, .hold low⟩) := by
  have hlevel : (Turn.after ⟨d, .hold low⟩).level = Level.ofPulls (d.pulling || low) := by
    rw [Turn.after, happen, hold_eq]
    rfl
  simp only [Turn.watch, hlevel]
  rw [hold_eq]
  generalize d.level.edge? (Level.ofPulls (d.pulling || low)) = e
  cases w with
  | none => exact watches_of_stopped h.timer.armed (by cases e <;> simp [h.edgeSeen, h.waitsFor])
  | some v =>
    have hnew : (v.note d.now e).edge.isSome = (v.edge.isSome || e.any fun e => v.wait.edge == some e) := by
      unfold Watch.note
      cases e with
      | none => simp
      | some e => cases hv : v.edge <;> by_cases he : v.wait.edge = some e <;> simp [he, hv]
    have hseen : (d.edgeSeen || e.any d.timer.waitsFor) = (v.note d.now e).edge.isSome := by
      rw [hnew, h.edgeSeen]
      cases e <;> simp [h.waitsFor]
    obtain hsame | ⟨hnone, hnoted⟩ := v.note_cases d.now e
    · rw [Option.map_some, hsame]
      rw [hsame] at hseen
      exact ⟨h.timer, hseen, h.since, h.deadline, h.edge⟩
    · rw [Option.map_some, hnoted]
      rw [hnoted] at hseen
      refine ⟨⟨h.timer.armed, fun u hu => ?_⟩, hseen, fun u hu => ?_, fun u hu => ?_, fun u hu t ht => ?_⟩ <;> cases hu
      · exact h.timer.start v rfl
      · exact h.since v rfl
      · exact h.deadline v rfl
      · exact (Option.some.inj ht).symm

theorem pass (h : d.Watches w) {k : Nat} (hp : Turn.prompt ⟨d, .pass k⟩ = true) :
    Watches { d with now := d.now + k } w := by
  have hidle : d.lineReady = false ∧ ∀ t ∈ d.timer.deadline?, d.now + k ≤ t := by
    simpa [Turn.prompt, Option.all_eq_true] using hp
  have hseen : d.edgeSeen = false := by
    have hline := hidle.1
    simp only [lineReady, Bool.or_eq_false_iff] at hline
    exact hline.1.1
  refine ⟨h.timer, h.edgeSeen, fun v hv => Nat.le_add_right_of_le (h.since v hv), fun v hv t ht => ?_, fun v hv t ht => ?_⟩
  · refine hidle.2 t ?_
    rw [h.deadline?, Option.mem_def.1 hv]
    exact ht
  · rw [h.edge_of_not_seen hseen hv] at ht
    cases ht

end Watches

theorem Turn.watches {t : Turn} (h : t.before.Watches w) (hp : t.prompt = true) : t.after.Watches (t.watch w) := by
  obtain ⟨d, x⟩ := t
  cases x with
  | event => exact h.event
  | control => exact h.control
  | hold low => exact h.hold low
  | pass k => exact h.pass hp
  | turn id =>
    cases hs : d.stage? id with
    | none =>
      rw [after, happen, pollCall_of_none hs]
      exact h
    | some c =>
      obtain ⟨calls, results, heq⟩ := pollCall_of_stage? hs
      obtain ⟨engine, controls, lastResult, locked, mailbox, notices, hturn⟩ := (d.turn_goes c).eq
      rw [after, happen, heq, hturn]
      exact h.still rfl rfl rfl
  | host =>
    obtain ⟨received, resultPending, mailbox, calls, notices, heq⟩ := d.serveNext_eq
    rw [after, happen, heq]
    exact h.still rfl rfl rfl
  | cancel id =>
    obtain ⟨locked, heq⟩ := d.cancel_eq id
    rw [after, happen, heq]
    exact h.still rfl rfl rfl
  | setAddress a =>
    obtain ⟨notices, heq⟩ := d.happen_setAddress a
    rw [after, heq]
    exact h.still rfl rfl rfl
  | _ => exact h.still rfl rfl rfl

theorem Watches.through (h : d.Watches w) {hs : List Happening} (hp : d.Prompt hs) :
    (d.through hs).Watches ((d.turns hs).foldl Turn.watch w) := by
  induction hs generalizing d w with
  | nil => exact h
  | cons x rest ih =>
    rw [Prompt, turns, List.forall_mem_cons] at hp
    exact ih (Turn.watches h hp.1) hp.2

end Device
end HdmiCec
