import HdmiCec.Proofs.Engine.Armed

/-! A timer that reports once. An event spends the wait it ends, so an engine would be stuck if it took
one without arming the next. While every event is one that the engine waits for, an engine that is on
always has a wait armed, takes no event without entering a state, and arms exactly one wait as it does
(`attended`). -/
namespace HdmiCec

theorem FreeTime.ticks_ne_zero (f : FreeTime) : f.ticks ≠ 0 := by cases f <;> decide

theorem Initiator.span_ne_zero (s : Initiator) (x : Outgoing) : s.span x ≠ 0 := by
  cases s with
  | freeTime => exact x.freeTime.ticks_ne_zero
  | low f => rw [span]; cases x.bit f <;> decide
  | high f => rw [span]; cases x.bit f <;> decide
  | _ => rw [span]; decide

theorem Follower.span_ne_zero (s : Follower) (r : Incoming) : s.span r ≠ 0 := by
  cases s with
  | ackFinish => rw [span]; split <;> decide
  | _ => rw [span]; decide

namespace Engine

variable {e : Engine} {w : Option Wait}

/-- Only in an idle engine the wait has no end but the edge. -/
theorem Awaits.ticks {v : Wait} (h : e.Awaits v) : v.ticks = Wait.forever ↔ e.state = .idle := by
  unfold Awaits at h
  cases hs : e.state with
  | disabled => rw [hs] at h; exact h.elim
  | idle => simp only [hs] at h; rw [h]; exact iff_of_true rfl rfl
  | initiator s =>
    simp only [hs] at h
    rw [h]
    exact iff_of_false (s.span_ne_zero e.tx) (by simp)
  | follower s =>
    simp only [hs] at h
    cases s with
    | debounce => rcases h with rfl | rfl <;> exact iff_of_false (by decide) (by simp)
    | _ => simp only [h, Wait.ticks, Option.getD_some, Wait.forever, Follower.span_ne_zero, reduceCtorEq]

theorem Awaits.event {v : Wait} (h : e.Awaits v) : v.edge.isSome = true ∨ v.timeout.isSome = true := by
  unfold Awaits at h
  cases hs : e.state with
  | disabled => rw [hs] at h; exact h.elim
  | idle => simp only [hs] at h; rw [h]; exact .inl rfl
  | initiator s => simp only [hs] at h; rw [h]; exact .inr rfl
  | follower s =>
    simp only [hs] at h
    cases s with
    | debounce => rcases h with rfl | rfl <;> exact .inr rfl
    | _ => rw [h]; exact .inr rfl

def Turn.leave (w : Option Wait) (t : Turn) : Option Wait := t.rearm (if t.call.isEvent then none else w)

/-- What is still armed after these turns. -/
def unspent (ts : List Turn) : Option Wait := ts.foldl Turn.leave none

/-- Every event is one that is armed when it comes. All else may be asked at any time. -/
def Heeds (e : Engine) (w : Option Wait) : List Call → Prop
  | [] => True
  | c :: rest => (c.isEvent = true → Wait.Admits w c) ∧ (e.after c).Heeds (Turn.leave w ⟨e, c⟩) rest

instance decidableHeeds : (e : Engine) → (w : Option Wait) → (calls : List Call) → Decidable (e.Heeds w calls)
  | _, _, [] => isTrue trivial
  | e, w, c :: rest =>
    have := decidableHeeds (e.after c) (Turn.leave w ⟨e, c⟩) rest
    inferInstanceAs (Decidable (_ ∧ _))

theorem heeds_append {first second : List Call} : e.Heeds w (first ++ second) ↔
    e.Heeds w first ∧ (e.run first).Heeds ((e.turns first).foldl Turn.leave w) second := by
  induction first generalizing e w with
  | nil => exact (iff_of_eq (true_and _)).symm
  | cons c rest ih => exact (and_congr_right fun _ => ih).trans and_assoc.symm

structure Attends (e : Engine) (w : Option Wait) : Prop where
  armed : e.Armed w
  isSome : w.isSome = e.isEnabled

theorem mem_notices_enter (e : Engine) (s : State) (line : Reading) :
    .state (e.enter s line).engine.state ∈ (e.enter s line).notices := by
  rw [state_enter]
  exact List.mem_cons_self

/-- Entering a state arms one wait, after one level at most. -/
theorem arms_enter (e : Engine) {s : State} (hs : s ≠ .disabled) (line : Reading) :
    ∃ (l : Option Level) (v : Wait), (e.enter s line).actions = (l.map .set).toList ++ [.arm v] := by
  simp only [enter]
  generalize (if s = .idle then e.rest else e) = e'
  obtain ⟨v, hv, -⟩ := awaits_entry { e' with state := e.target s } line (e.target_ne_disabled hs)
  exact ⟨_, v, by rw [Entry.actions, hv]; rfl⟩

theorem isSome_enter (e : Engine) {s : State} (hs : s ≠ .disabled) (line : Reading) (w : Option Wait) :
    ((e.enter s line).actions.foldl LineAction.rearm w).isSome = (e.enter s line).engine.isEnabled := by
  obtain ⟨l, v, hv⟩ := arms_enter e hs line
  have hon : (e.enter s line).engine.isEnabled = true := by
    rw [isEnabled, state_enter]
    simpa using e.target_ne_disabled hs
  rw [hon, hv, List.foldl_append]
  rfl

theorem deadlineMove?_of_admits (h : e.Attends w) {line : Reading} (ha : Wait.Admits w (.timeout line)) :
    ∃ m, e.deadlineMove? = some m ∧ m.next ≠ .disabled := by
  have hon := h.armed.deadline ha
  obtain ⟨m, hm⟩ := Option.isSome_iff_exists.1 (deadlineMove?_isSome hon)
  have hd : e.state ≠ .disabled := by rcases hon with ⟨s, hs⟩ | ⟨s, hs⟩ <;> simp [hs]
  refine ⟨m, hm, fun hn => (onTimeout_state line hd).1 ?_⟩
  simp only [onTimeout, hm, perform, state_enter, hn]
  exact target_of_ne_idle _ (by simp)

theorem edgeMove?_of_admits (h : e.Attends w) {t : Ticks} (ha : Wait.Admits w (.capture t)) :
    ∃ m, e.edgeMove? t = some m ∧ m.next ≠ .disabled := by
  have hon := h.armed.edge ha
  obtain ⟨m, hm⟩ := Option.isSome_iff_exists.1 (edgeMove?_isSome t hon)
  have hd : e.state ≠ .disabled := by rcases hon with hs | ⟨s, hs, -⟩ | ⟨s, hs, -⟩ <;> simp [hs]
  refine ⟨m, hm, fun hn => onCapture_state t hd ?_⟩
  simp only [onCapture, hm, perform, state_enter, hn]
  exact target_of_ne_idle _ (by simp)

theorem Attends.event (h : e.Attends w) {c : Call} (ha : Wait.Admits w c) :
    ∃ (l : Option Level) (v : Wait), (e.answer c).2.actions = (l.map .set).toList ++ [.arm v] ∧
      .state (e.after c).state ∈ (e.answer c).2.notices := by
  cases c with
  | capture t =>
    obtain ⟨m, hm, hnext⟩ := edgeMove?_of_admits h ha
    obtain ⟨l, v, hv⟩ := arms_enter m.engine hnext none
    refine ⟨l, v, ?_, ?_⟩
    · simp only [answer, onCapture, hm, perform]
      exact hv
    · simp only [after, answer, onCapture, hm, perform]
      exact List.mem_append_right _ (mem_notices_enter _ _ _)
  | timeout line =>
    obtain ⟨m, hm, hnext⟩ := deadlineMove?_of_admits h ha
    obtain ⟨l, v, hv⟩ := arms_enter m.engine hnext line
    refine ⟨l, v, ?_, ?_⟩
    · simp only [answer, onTimeout, hm, perform]
      exact hv
    · simp only [after, answer, onTimeout, hm, perform]
      exact List.mem_append_right _ (mem_notices_enter _ _ _)
  | _ => exact ha.elim

theorem answer_off (h : e.isEnabled = false) {c : Call} (hc : c.isEvent = true) :
    e.answer c = (.completion none, { engine := e }) := by
  have hs : e.state = .disabled := by simpa [isEnabled] using h
  cases c with
  | capture t => simp [answer, onCapture, edgeMove?, hs]
  | timeout line => simp [answer, onTimeout, deadlineMove?, hs]
  | _ => cases hc

theorem isSome_startSend (h : w.isSome = e.isEnabled) :
    (e.startSend.actions.foldl LineAction.rearm w).isSome = e.startSend.engine.isEnabled := by
  unfold Engine.startSend
  split
  · exact isSome_enter e (by simp) none w
  · exact h

theorem isSome_setEnabled (h : w.isSome = e.isEnabled) (on : Bool) :
    ((e.setEnabled on).actions.foldl LineAction.rearm w).isSome = (e.setEnabled on).engine.isEnabled := by
  unfold Engine.setEnabled
  split
  · exact h
  · split
    · exact isSome_enter e (by simp) none w
    · rfl

theorem isEnabled_load (e : Engine) (m : Message) : (e.load m).isEnabled = e.isEnabled := by
  rw [isEnabled, load_state]
  rfl

theorem Attends.after (h : e.Attends w) (he : e.Steady) {c : Call} (hc : c.isEvent = true → Wait.Admits w c) :
    (e.after c).Attends (Turn.leave w ⟨e, c⟩) := by
  constructor
  · refine Armed.after (fun v hv => ?_) he c
    split at hv
    · cases hv
    · exact h.armed v hv
  · cases c with
    | setAddress a =>
      by_cases ha : a.Assignable
      · simp only [Engine.after, Turn.leave, Turn.rearm, Turn.did, answer, Engine.setAddress, if_pos ha]
        exact h.isSome
      · simp only [Engine.after, Turn.leave, Turn.rearm, Turn.did, answer, Engine.setAddress, if_neg ha]
        exact h.isSome
    | setEnabled on => exact isSome_setEnabled h.isSome on
    | submit m =>
      by_cases ha : e.Accepts m
      · simp only [Engine.after, Turn.leave, Turn.rearm, Turn.did, answer_submit ha, isEnabled_load]
        exact h.isSome
      · obtain ⟨x, hx⟩ := answer_submit_refused ha
        simp only [Engine.after, Turn.leave, Turn.rearm, Turn.did, hx]
        exact h.isSome
    | startSend => exact isSome_startSend h.isSome
    | send m =>
      by_cases ha : e.Accepts m
      · simp only [Engine.after, Turn.leave, Turn.rearm, Turn.did, answer_send ha]
        exact isSome_startSend (h.isSome.trans (e.isEnabled_load m).symm)
      · obtain ⟨x, hx⟩ := answer_send_refused ha
        simp only [Engine.after, Turn.leave, Turn.rearm, Turn.did, hx]
        exact h.isSome
    | capture t =>
      obtain ⟨m, hm, hnext⟩ := edgeMove?_of_admits h (hc rfl)
      simp only [Engine.after, Turn.leave, Turn.rearm, Turn.did, answer, Engine.onCapture, hm, perform]
      exact isSome_enter m.engine hnext none none
    | timeout line =>
      obtain ⟨m, hm, hnext⟩ := deadlineMove?_of_admits h (hc rfl)
      simp only [Engine.after, Turn.leave, Turn.rearm, Turn.did, answer, Engine.onTimeout, hm, perform]
      exact isSome_enter m.engine hnext line none

theorem Attends.run (h : e.Attends w) (he : e.Steady) {calls : List Call} (hc : e.Heeds w calls) :
    (e.run calls).Attends ((e.turns calls).foldl Turn.leave w) := by
  induction calls generalizing e w with
  | nil => exact h
  | cons c rest ih => exact ih (h.after he hc.1) (he.after c) hc.2

theorem attends_new : ({} : Engine).Attends none where
  armed := fun _ hv => by cases hv
  isSome := rfl

/-- While events come only where they are armed, and each wait is spent by its event: an engine that is on
has an event armed, with a deadline unless it is idle; one that is off has nothing armed and does nothing;
and an armed event enters a state, with one level at most and then one wait. -/
theorem attended (calls : List Call) (h : ({} : Engine).Heeds none calls) :
    let e := ({} : Engine).run calls
    let w := unspent (({} : Engine).turns calls)
    (e.isEnabled = true → ∃ v, w = some v ∧ (v.edge.isSome = true ∨ v.timeout.isSome = true) ∧
      (v.ticks = Wait.forever ↔ e.state = .idle)) ∧
    (e.isEnabled = false → w = none ∧ ∀ c : Call, c.isEvent = true → e.answer c = (.completion none, { engine := e })) ∧
    ∀ c, Wait.Admits w c → ∃ (l : Option Level) (v : Wait),
      (e.answer c).2.actions = (l.map .set).toList ++ [.arm v] ∧ .state (e.after c).state ∈ (e.answer c).2.notices := by
  intro e w
  have ha : e.Attends w := attends_new.run steady_new h
  refine ⟨fun hon => ?_, fun hoff => ⟨?_, fun c hc => answer_off hoff hc⟩, fun c hc => ha.event hc⟩
  · obtain ⟨v, hv⟩ := Option.isSome_iff_exists.1 (ha.isSome.trans hon)
    have hawaits := ha.armed v hv
    exact ⟨v, hv, hawaits.event, hawaits.ticks⟩
  · exact Option.not_isSome_iff_eq_none.1 (by rw [ha.isSome, hoff]; simp)

/-- A frame of its own that gives way, and the first edge of the frame it then follows. -/
theorem attended_lost_arbitration :
    let calls : List Call := [.setEnabled true, .send [0x04], .timeout none, .timeout none, .capture 300,
      .setAddress ⟨4⟩, .capture 3700]
    ({} : Engine).Heeds none calls ∧ (({} : Engine).run calls).state = .follower .startHigh ∧
      ∃ v, unspent (({} : Engine).turns calls) = some v ∧ (v.edge.isSome = true ∨ v.timeout.isSome = true) ∧
        (v.ticks = Wait.forever ↔ (({} : Engine).run calls).state = .idle) := by
  refine ⟨by decide, by decide, ?_⟩
  exact (attended _ (by decide)).1 (by decide)

end Engine
end HdmiCec
