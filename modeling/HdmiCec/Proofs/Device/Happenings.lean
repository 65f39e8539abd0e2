import HdmiCec.Device.Schedule
import HdmiCec.Proofs.Engine.History

/-! A device whose tasks take their turns in any order. A history is a list of happenings: a task goes on
by one step, a call is made or given up, the host looks, the line or the clock changes. The schedule that
a device runs by is one of these orders (`perform_through`), so what holds of every history holds of it. -/
namespace HdmiCec

def Control.call : Control → Engine.Call
  | .enable on => .setEnabled on
  | .startSend => .startSend

namespace LineAction

/-- What becomes of the timer, where a wait begins at `time`. -/
def retime (time : Nat) (x : EdgeTimer) : LineAction → EdgeTimer
  | .set _ => x
  | .arm w => .arm w time
  | .stop => x.stop

def grip (pulling : Bool) : LineAction → Bool
  | .set level => level == .low
  | .arm _ | .stop => pulling

def writes (now : Nat) (past : Array (Nat × Level)) : LineAction → Array (Nat × Level)
  | .set level => past.push (now, level)
  | .arm _ | .stop => past

end LineAction

namespace Device

inductive Happening where
  | event
  /-- The line's task takes the oldest request. -/
  | control
  /-- A call goes on as far as it can. -/
  | turn (id : Nat)
  /-- The host's task takes the oldest message, or else passes on that a send is over. -/
  | host
  | enable (on : Bool)
  | send (m : Message)
  | sendWait (m : Message)
  | cancel (id : Nat)
  | serve (on : Bool)
  | setOff (off : Bool)
  | setAddress (a : LogicalAddress)
  | pop
  | takeEvents
  | hold (low : Bool)
  | pass (ticks : Nat)
  /-- A request comes in that none of the calls makes. -/
  | ask (c : Control)
  deriving DecidableEq, Repr

def edges (ps : List (Nat × Bool)) : List Happening := ps.flatMap fun p => [.pass p.1, .hold p.2, .event]

def poll : List Happening :=
  edges [(0, true), (3700, false), (800, true),
      (1500, false), (900, true), (1500, false), (900, true), (1500, false), (900, true), (1500, false), (900, true),
      (1500, false), (900, true), (600, false), (1800, true), (1500, false), (900, true), (600, false), (1800, true),
      (600, false), (1800, true)] ++
    [.hold false, .pass 2400] ++ List.replicate 3 .event

/-- What the engine is to be told of the wait under way, and the time for which it counts. -/
def event? (d : Device) : Option (Nat × Engine.Call) :=
  if d.edgeSeen then some (d.now, .capture (d.timer.elapsed d.now))
  else match d.timer.deadline? with
    | some t => if t ≤ d.now then some (t, .timeout (some d.level)) else none
    | none => none

def request? (d : Device) : Option Control := if d.edgeSeen then none else d.controls.head?

def takeControl (d : Device) : Device :=
  match d.request? with
  | some c => ({ d with controls := d.controls.tail } : Device).control c
  | none => d

def serveNext (d : Device) : Device :=
  if ¬ d.serving then d
  else match d.received with
    | m :: rest => ({ d with received := rest } : Device).deliver m
    | [] =>
      if d.resultPending then
        { d with
          resultPending := false,
          trace := { d.trace with calls := d.trace.calls.push .eventsPending } }
      else d

def hold (d : Device) (low : Bool) : Device :=
  let next := { d with heldLow := low }
  match d.level.edge? next.level with
  | some e => { next with edgeSeen := d.edgeSeen || d.timer.waitsFor e }
  | none => next

def happen (d : Device) : Happening → Device
  | .event => d.takeEvent
  | .control => d.takeControl
  | .turn id => d.pollCall id
  | .host => d.serveNext
  | .enable on => d.begin (.enabling on)
  | .send m => d.begin (.submitting m)
  | .sendWait m => d.begin (.locking m)
  | .cancel id => d.cancel id
  | .serve on => { d with serving := on }
  | .setOff off => { d with off := off }
  | .setAddress a => match d.engine.setAddress a with
    | .ok r => d.absorb r d.now
    | .error _ => d
  | .pop => ({ d with mailbox := d.mailbox.pop.1 } : Device).report d.mailbox.pop.2.2
  | .takeEvents => { d with mailbox := d.mailbox.takeEvents.1 }
  | .hold low => d.hold low
  | .pass ticks => { d with now := d.now + ticks }
  | .ask c => d.request c

def through (d : Device) : List Happening → Device
  | [] => d
  | h :: rest => (d.happen h).through rest

structure Turn where
  before : Device
  happening : Happening

def Turn.after (t : Turn) : Device := t.before.happen t.happening

def turns (d : Device) : List Happening → List Turn
  | [] => []
  | h :: rest => ⟨d, h⟩ :: (d.happen h).turns rest

variable {d : Device}

theorem through_append (d : Device) (u v : List Happening) : d.through (u ++ v) = (d.through u).through v := by
  induction u generalizing d with
  | nil => rfl
  | cons h u ih => exact ih _

theorem turns_append (d : Device) (u v : List Happening) : d.turns (u ++ v) = d.turns u ++ (d.through u).turns v := by
  induction u generalizing d with
  | nil => rfl
  | cons h u ih => exact congrArg _ (ih _)

/-- A turn is made at the device that the turns before it leave. -/
theorem turns_split {hs : List Happening} {us vs : List Turn} {t : Turn} (h : d.turns hs = us ++ t :: vs) :
    ∃ past x rest, hs = past ++ x :: rest ∧ t = ⟨d.through past, x⟩ ∧ us = d.turns past ∧ vs = t.after.turns rest := by
  induction us generalizing d hs with
  | nil =>
    cases hs with
    | nil => cases h
    | cons x hs =>
      obtain ⟨rfl, rfl⟩ := List.cons.inj h
      exact ⟨[], x, hs, rfl, rfl, rfl, rfl⟩
  | cons u us ih =>
    cases hs with
    | nil => cases h
    | cons x hs =>
      obtain ⟨rfl, hrest⟩ := List.cons.inj h
      obtain ⟨past, y, rest, rfl, rfl, rfl, rfl⟩ := ih hrest
      exact ⟨x :: past, y, rest, rfl, rfl, rfl, rfl⟩

theorem mem_turns {hs : List Happening} {t : Turn} (h : t ∈ d.turns hs) :
    ∃ past rest, hs = past ++ t.happening :: rest ∧ t.before = d.through past := by
  obtain ⟨us, vs, hsplit⟩ := List.append_of_mem h
  obtain ⟨past, x, rest, rfl, rfl, -, -⟩ := turns_split hsplit
  exact ⟨past, rest, rfl, rfl⟩

/-! What a turn of the line's task leaves alone. -/

theorem absorb_eq (d : Device) (r : Reaction) (time : Nat) : d.absorb r time =
    { d with
      engine := r.engine, timer := r.actions.foldl (LineAction.retime time) d.timer,
      pulling := r.actions.foldl LineAction.grip d.pulling,
      trace := { d.trace with
        writes := r.actions.foldl (LineAction.writes d.now) d.trace.writes,
        notices := d.trace.notices ++ r.notices } } := by
  have keep : ∀ (as : List LineAction) (d : Device), as.foldl (act time) d =
      { d with
        timer := as.foldl (LineAction.retime time) d.timer, pulling := as.foldl LineAction.grip d.pulling,
        trace := { d.trace with writes := as.foldl (LineAction.writes d.now) d.trace.writes } } := by
    intro as
    induction as with
    | nil => exact fun d => rfl
    | cons a as ih =>
      intro d
      rw [List.foldl_cons, ih]
      cases a <;> rfl
  rw [absorb, keep]
  rfl

theorem absorb_silent (d : Device) {r : Reaction} (h : r.actions = []) (time : Nat) : d.absorb r time =
    { d with engine := r.engine, trace := { d.trace with notices := d.trace.notices ++ r.notices } } := by
  rw [absorb_eq, h]
  rfl

theorem takeEvent_eq (d : Device) : d.takeEvent = match d.event? with
    | some (time, c) => d.onEvent time (d.engine.answer c).2
    | none => d := by
  unfold takeEvent event?
  by_cases hseen : d.edgeSeen = true
  · rw [if_pos hseen, if_pos hseen]
    rfl
  · rw [if_neg hseen, if_neg hseen]
    cases d.timer.deadline? with
    | none => rfl
    | some t =>
      by_cases hle : t ≤ d.now
      · simp only [if_pos hle]
        rfl
      · simp only [if_neg hle]

theorem takeEvent_of_event? {time : Nat} {c : Engine.Call} (h : d.event? = some (time, c)) :
    d.takeEvent = d.onEvent time (d.engine.answer c).2 := by rw [takeEvent_eq, h]

theorem takeEvent_of_none (h : d.event? = none) : d.takeEvent = d := by rw [takeEvent_eq, h]

/-- An event ends the wait under way. The next one, if the engine arms any, counts from `time`. -/
theorem onEvent_eq (d : Device) (time : Nat) (r : Reaction) :
    ∃ received resultPending lastResult mailbox notices, d.onEvent time r =
      { d with
        engine := r.engine, timer := r.actions.foldl (LineAction.retime time) d.timer.stop, edgeSeen := false,
        pulling := r.actions.foldl LineAction.grip d.pulling,
        received := received, resultPending := resultPending, lastResult := lastResult, mailbox := mailbox,
        trace := { d.trace with writes := r.actions.foldl (LineAction.writes d.now) d.trace.writes, notices := notices } } := by
  rw [onEvent, absorb_eq]
  split
  · next c _ =>
    cases c with
    | received m =>
      rw [settleOutcome]
      split <;> exact ⟨_, _, _, _, _, rfl⟩
    | _ => exact ⟨_, _, _, _, _, rfl⟩
  · exact ⟨_, _, _, _, _, rfl⟩

/-- A request is answered by the engine; whoever waits for a frame is told if it is dropped. -/
theorem control_eq (d : Device) (c : Control) : ∃ result, d.control c =
    { d.absorb (d.engine.answer c.call).2 d.now with lastResult := result } := by
  cases c with
  | startSend => exact ⟨_, rfl⟩
  | enable on =>
    cases on with
    | true => exact ⟨_, rfl⟩
    | false =>
      simp only [control]
      split
      · exact ⟨_, rfl⟩
      · exact ⟨_, rfl⟩

/-- A request is taken after any edge, and in the order in which they were made. -/
theorem of_request? {c : Control} (h : d.request? = some c) :
    d.edgeSeen = false ∧ d.controls = c :: d.controls.tail := by
  unfold request? at h
  split at h
  · cases h
  · next hseen =>
    obtain ⟨rest, hrest⟩ := List.head?_eq_some_iff.1 h
    exact ⟨by simpa using hseen, by rw [hrest]; rfl⟩

theorem takeControl_of_request? {c : Control} (h : d.request? = some c) : ∃ result, d.takeControl =
    { d.absorb (d.engine.answer c.call).2 d.now with controls := d.controls.tail, lastResult := result } := by
  obtain ⟨result, heq⟩ := control_eq { d with controls := d.controls.tail } c
  refine ⟨result, ?_⟩
  rw [takeControl, h]
  simp only [heq, absorb_eq]

theorem takeControl_of_none (h : d.request? = none) : d.takeControl = d := by rw [takeControl, h]

/-! What a turn of a call leaves alone. -/

/-- Where a turn of a call leads: it may hand a frame to the engine, leave a request behind those in line if there
is room, take the last result or clear it, take or give back the lock; switching off empties the mailbox. -/
structure Goes (d : Device) (c : Call) (e : Device) : Prop where
  eq : ∃ engine controls lastResult locked mailbox notices, e =
    { d with
      engine := engine, controls := controls, lastResult := lastResult, locked := locked, mailbox := mailbox,
      trace := { d.trace with notices := notices } }
  controls : d.controls <+: e.controls
  engine : e.engine = d.engine ∨ ∃ m, e.engine = d.engine.after (.submit m)
  mailbox : e.mailbox = if c = .enabling false ∧ d.hasRoom = true then d.mailbox.reset else d.mailbox

theorem submit_cases (e : Engine) (m : Message) :
    (∃ r, e.submit m = .ok r ∧ r.actions = [] ∧ r.engine = e.after (.submit m)) ∨ ∃ x, e.submit m = .error x := by
  cases h : e.submit m with
  | error x => exact .inr ⟨x, rfl⟩
  | ok r =>
    refine .inl ⟨r, rfl, ?_, ?_⟩
    · obtain ⟨-, -, -, rfl⟩ := Engine.submit_eq_ok_iff.1 h
      rfl
    · rw [Engine.after, Engine.answer, h]

theorem awaitResult_eq (d : Device) : ∃ lastResult locked, d.awaitResult.1 =
    { d with lastResult := lastResult, locked := locked } := by
  unfold awaitResult
  split
  · exact ⟨none, false, rfl⟩
  · exact ⟨d.lastResult, d.locked, rfl⟩

theorem askToStart_eq (d : Device) : ∃ controls, d.controls <+: controls ∧
    d.askToStart.1 = { d with controls := controls } := by
  unfold askToStart
  split
  · exact ⟨_, List.prefix_append _ _, rfl⟩
  · exact ⟨d.controls, List.prefix_rfl, rfl⟩

theorem askToStartLocked_eq (d : Device) : ∃ controls lastResult locked, d.controls <+: controls ∧
    d.askToStartLocked.1 = { d with controls := controls, lastResult := lastResult, locked := locked } := by
  unfold askToStartLocked
  split
  · obtain ⟨lastResult, locked, h⟩ := (d.request .startSend).awaitResult_eq
    exact ⟨_, lastResult, locked, List.prefix_append _ _, h⟩
  · exact ⟨d.controls, d.lastResult, d.locked, List.prefix_rfl, rfl⟩

/-- Switching off empties the mailbox as the request is made, before it is answered. -/
theorem turn_enabling (h : d.hasRoom = true) (on : Bool) : (d.turn (.enabling on)).1 =
    { d with
      controls := d.controls ++ [.enable on],
      mailbox := if on = false then d.mailbox.reset else d.mailbox } := by
  cases on <;> simp [turn, h, request]

theorem turn_goes (d : Device) (c : Call) : d.Goes c (d.turn c).1 := by
  cases c with
  | enabling on =>
    by_cases hroom : d.hasRoom = true
    · rw [turn_enabling hroom]
      exact ⟨⟨_, _, _, _, _, _, rfl⟩, List.prefix_append _ _, .inl rfl, by simp [hroom]⟩
    · simp only [turn, if_neg hroom]
      exact ⟨⟨_, _, _, _, _, _, rfl⟩, List.prefix_rfl, .inl rfl, by simp [hroom]⟩
  | submitting m =>
    obtain ⟨r, hr, hsilent, hengine⟩ | ⟨x, hx⟩ := submit_cases d.engine m
    · obtain ⟨controls, hprefix, h⟩ := (d.absorb r d.now).askToStart_eq
      rw [absorb_silent d hsilent] at hprefix h
      simp only [turn, hr, absorb_silent d hsilent, h]
      exact ⟨⟨_, _, _, _, _, _, rfl⟩, hprefix, .inr ⟨m, hengine⟩, rfl⟩
    · simp only [turn, hx]
      exact ⟨⟨_, _, _, _, _, _, rfl⟩, List.prefix_rfl, .inl rfl, rfl⟩
  | starting =>
    obtain ⟨controls, hprefix, h⟩ := d.askToStart_eq
    rw [turn, h]
    exact ⟨⟨_, _, _, _, _, _, rfl⟩, hprefix, .inl rfl, rfl⟩
  | locking m =>
    by_cases hlocked : d.locked = true
    · simp only [turn, if_pos hlocked]
      exact ⟨⟨_, _, _, _, _, _, rfl⟩, List.prefix_rfl, .inl rfl, rfl⟩
    simp only [turn, if_neg hlocked]
    obtain ⟨r, hr, hsilent, hengine⟩ | ⟨x, hx⟩ := submit_cases d.engine m
    · obtain ⟨controls, lastResult, locked, hprefix, h⟩ :=
        ({ d.absorb r d.now with locked := true, lastResult := none } : Device).askToStartLocked_eq
      rw [absorb_silent d hsilent] at hprefix h
      simp only [hr, absorb_silent d hsilent, h]
      exact ⟨⟨_, _, _, _, _, _, rfl⟩, hprefix, .inr ⟨m, hengine⟩, rfl⟩
    · simp only [hx]
      exact ⟨⟨_, _, _, _, _, _, rfl⟩, List.prefix_rfl, .inl rfl, rfl⟩
  | startingLocked =>
    obtain ⟨controls, lastResult, locked, hprefix, h⟩ := d.askToStartLocked_eq
    rw [turn, h]
    exact ⟨⟨_, _, _, _, _, _, rfl⟩, hprefix, .inl rfl, rfl⟩
  | awaiting =>
    obtain ⟨lastResult, locked, h⟩ := d.awaitResult_eq
    rw [turn, h]
    exact ⟨⟨_, _, _, _, _, _, rfl⟩, List.prefix_rfl, .inl rfl, rfl⟩

theorem pollCall_of_none {id : Nat} (h : d.stage? id = none) : d.pollCall id = d := by rw [pollCall, h]

theorem pollCall_cases {id : Nat} {c : Call} (h : d.stage? id = some c) :
    (∃ c', (d.turn c).2 = .inl c' ∧ d.pollCall id =
      { (d.turn c).1 with calls := d.calls.map fun x => if x.1 == id then (id, c') else x }) ∨
    ∃ r, (d.turn c).2 = .inr r ∧ d.pollCall id =
      { (d.turn c).1 with
        calls := d.calls.filter (·.1 != id),
        trace := { (d.turn c).1.trace with results := (d.turn c).1.trace.results.push (id, r) } } := by
  obtain ⟨engine, controls, lastResult, locked, mailbox, notices, heq⟩ := (d.turn_goes c).eq
  simp only [pollCall, h]
  generalize d.turn c = p at heq
  obtain ⟨e, p⟩ := p
  obtain rfl : e = _ := heq
  cases p with
  | inl c' => exact .inl ⟨c', rfl, rfl⟩
  | inr r => exact .inr ⟨r, rfl, rfl⟩

theorem pollCall_of_stage? {id : Nat} {c : Call} (h : d.stage? id = some c) : ∃ calls results, d.pollCall id =
    { (d.turn c).1 with calls := calls, trace := { (d.turn c).1.trace with results := results } } := by
  obtain ⟨c', -, hp⟩ | ⟨r, -, hp⟩ := pollCall_cases h
  · exact ⟨_, (d.turn c).1.trace.results, hp⟩
  · exact ⟨_, _, hp⟩

theorem mem_of_stage? {id : Nat} {c : Call} (h : d.stage? id = some c) : (id, c) ∈ d.calls := by
  obtain ⟨⟨i, c'⟩, hfind, rfl⟩ := Option.map_eq_some_iff.1 h
  have hid : i = id := by simpa using List.find?_some hfind
  exact hid ▸ List.mem_of_find?_eq_some hfind

inductive Leads : Call → Call → Prop
  | stays (c : Call) : Leads c c
  | taken (m : Message) : Leads (.submitting m) .starting
  | locked (m : Message) : Leads (.locking m) .startingLocked
  | asked (m : Message) : Leads (.locking m) .awaiting
  | waits : Leads .startingLocked .awaiting

theorem askToStart_next {c : Call} (h : d.askToStart.2 = .inl c) : c = .starting := by
  unfold askToStart at h
  split at h <;> cases h
  rfl

theorem awaitResult_next {c : Call} (h : d.awaitResult.2 = .inl c) : c = .awaiting := by
  unfold awaitResult at h
  split at h <;> cases h
  rfl

theorem askToStartLocked_next {c : Call} (h : d.askToStartLocked.2 = .inl c) : c = .startingLocked ∨ c = .awaiting := by
  unfold askToStartLocked at h
  split at h
  · exact .inr (awaitResult_next h)
  · cases h
    exact .inl rfl

theorem turn_leads {c c' : Call} (h : (d.turn c).2 = .inl c') : Leads c c' := by
  cases c with
  | enabling on =>
    simp only [turn] at h
    split at h <;> cases h
    exact .stays _
  | submitting m =>
    simp only [turn] at h
    split at h
    · rw [askToStart_next h]
      exact .taken m
    · cases h
  | starting =>
    rw [askToStart_next h]
    exact .stays _
  | locking m =>
    simp only [turn] at h
    split at h
    · cases h
      exact .stays _
    · split at h
      · obtain rfl | rfl := askToStartLocked_next h
        · exact .locked m
        · exact .asked m
      · cases h
  | startingLocked =>
    obtain rfl | rfl := askToStartLocked_next h
    · exact .stays _
    · exact .waits
  | awaiting =>
    rw [awaitResult_next h]
    exact .stays _

/-! The other tasks, and the line. -/

theorem cancel_eq (d : Device) (id : Nat) : ∃ locked, d.cancel id =
    { d with calls := d.calls.filter (·.1 != id), locked := locked } := by
  unfold cancel
  split
  · next h =>
    have hnone : d.calls.filter (·.1 != id) = d.calls := by
      refine List.filter_eq_self.2 fun x hx => ?_
      have hfind : d.calls.find? (·.1 == id) = none := Option.map_eq_none_iff.1 h
      simpa using List.find?_eq_none.1 hfind x hx
    exact ⟨d.locked, by rw [hnone]⟩
  · exact ⟨_, rfl⟩

theorem serveNext_eq (d : Device) : ∃ received resultPending mailbox calls notices, d.serveNext =
    { d with
      received := received, resultPending := resultPending, mailbox := mailbox,
      trace := { d.trace with calls := calls, notices := notices } } := by
  unfold serveNext
  split
  · exact ⟨_, _, _, _, _, rfl⟩
  · split
    · exact ⟨_, _, _, _, _, rfl⟩
    · split <;> exact ⟨_, _, _, _, _, rfl⟩

theorem hold_eq (d : Device) (low : Bool) : d.hold low =
    { d with
      heldLow := low,
      edgeSeen := d.edgeSeen || (d.level.edge? (Level.ofPulls (d.pulling || low))).any d.timer.waitsFor } := by
  simp only [hold, level]
  cases (Level.ofPulls (d.pulling || d.heldLow)).edge? (Level.ofPulls (d.pulling || low)) <;> simp

/-- A new address concerns the engine alone. -/
theorem happen_setAddress (d : Device) (a : LogicalAddress) : ∃ notices, d.happen (.setAddress a) =
    { d with engine := d.engine.after (.setAddress a), trace := { d.trace with notices := notices } } := by
  rw [Engine.after_setAddress]
  by_cases ha : a.Assignable
  · have hr : d.engine.setAddress a = .ok { engine := { d.engine with address := a }, notices := [.addressSet a] } := by
      simp [Engine.setAddress, ha]
    simp only [happen, hr, if_pos ha]
    exact ⟨_, absorb_silent d rfl d.now⟩
  · have hr : ∃ x, d.engine.setAddress a = .error x := by simp [Engine.setAddress, ha]
    obtain ⟨x, hr⟩ := hr
    simp only [happen, hr, if_neg ha]
    exact ⟨d.trace.notices, rfl⟩

/-! What becomes of the engine. -/

theorem engine_absorb (d : Device) (r : Reaction) (time : Nat) : (d.absorb r time).engine = r.engine := by
  rw [absorb_eq]

theorem engine_onEvent (d : Device) (time : Nat) (r : Reaction) : (d.onEvent time r).engine = r.engine := by
  obtain ⟨received, resultPending, lastResult, mailbox, notices, h⟩ := d.onEvent_eq time r
  rw [h]

/-- Whatever happens, the engine is as it was or is asked one thing. -/
theorem engine_happen (d : Device) (h : Happening) :
    (d.happen h).engine = d.engine ∨ ∃ c, (d.happen h).engine = d.engine.after c := by
  cases h with
  | event =>
    cases he : d.event? with
    | none => exact .inl (by rw [happen, takeEvent_of_none he])
    | some x => exact .inr ⟨x.2, by rw [happen, takeEvent_of_event? he, engine_onEvent]; rfl⟩
  | control =>
    cases hr : d.request? with
    | none => exact .inl (by rw [happen, takeControl_of_none hr])
    | some c =>
      obtain ⟨result, hc⟩ := takeControl_of_request? hr
      exact .inr ⟨c.call, by rw [happen, hc]; exact engine_absorb _ _ _⟩
  | turn id =>
    cases hs : d.stage? id with
    | none => exact .inl (by rw [happen, pollCall_of_none hs])
    | some c =>
      obtain ⟨calls, results, hp⟩ := pollCall_of_stage? hs
      rw [happen, hp]
      obtain he | ⟨m, he⟩ := (d.turn_goes c).engine
      · exact .inl he
      · exact .inr ⟨.submit m, he⟩
  | host =>
    obtain ⟨received, resultPending, mailbox, calls, notices, hc⟩ := d.serveNext_eq
    exact .inl (by rw [happen, hc])
  | cancel id =>
    obtain ⟨locked, hc⟩ := d.cancel_eq id
    exact .inl (by rw [happen, hc])
  | setAddress a =>
    obtain ⟨notices, hc⟩ := d.happen_setAddress a
    exact .inr ⟨.setAddress a, by rw [hc]⟩
  | hold low => exact .inl (by rw [happen, hold_eq])
  | _ => exact .inl rfl

theorem steady_happen (h : d.engine.Steady) (x : Happening) : (d.happen x).engine.Steady := by
  obtain he | ⟨c, he⟩ := d.engine_happen x
  · rwa [he]
  · rw [he]
    exact h.after c

end Device
end HdmiCec
