import HdmiCec.Bus.Step
import HdmiCec.Proofs.Engine.Waits

/-! One node of a bus. Its timer and its hold on the line go with the state of its engine
(`Node.Sound`), whatever happens to it and whatever the line does. -/
namespace HdmiCec

namespace Node

/-- What an engine is doing, what its timer waits for and whether it holds the line low belong
together. -/
structure Sound (n : Node) : Prop where
  fit : n.engine.Fit
  armed : n.engine.state ≠ .disabled → ∃ w, n.engine.Awaits w ∧ n.timer = .arm w n.timer.start
  unarmed : n.engine.state = .disabled → n.timer.armed = none
  pulls : ∀ s, n.engine.state = .initiator s → s.isLow = true → n.pulling = true
  free : n.pulling = true → n.engine.state.mayPull = true

def expire (n : Node) (line : Level) (now : Nat) : Node :=
  ({ n with timer := n.timer.stop } : Node).absorb (n.engine.onTimeout (some line)) now

def hear (n : Node) (now : Nat) : Node :=
  ({ n with timer := n.timer.stop } : Node).absorb (n.engine.onCapture (n.timer.elapsed now)) now

theorem engine_absorb (n : Node) (r : Reaction) (now : Nat) : (n.absorb r now).engine = r.engine := by
  have keep : ∀ (as : List LineAction) (m : Node), (as.foldl (act · now) m).engine = m.engine := by
    intro as
    induction as with
    | nil => intro m; rfl
    | cons a as ih => intro m; rw [List.foldl_cons, ih]; cases a <;> rfl
  unfold absorb
  cases r.outcome <;> simp [keep]

theorem engine_hear (n : Node) (now : Nat) :
    (n.hear now).engine = (n.engine.onCapture (n.timer.elapsed now)).engine := engine_absorb _ _ _

theorem engine_expire (n : Node) (line : Level) (now : Nat) :
    (n.expire line now).engine = (n.engine.onTimeout (some line)).engine := engine_absorb _ _ _

theorem completions_absorb (n : Node) (r : Reaction) (now : Nat) : (n.absorb r now).completions.toList =
    n.completions.toList ++ r.outcome.toList.map (now, ·) := by
  have keep : ∀ (as : List LineAction) (m : Node),
      (as.foldl (act · now) m).completions = m.completions := by
    intro as
    induction as with
    | nil => intro m; rfl
    | cons a as ih => intro m; rw [List.foldl_cons, ih]; cases a <;> rfl
  unfold absorb
  cases r.outcome <;> simp [keep]

theorem completions_expire (n : Node) (line : Level) (now : Nat) : (n.expire line now).completions.toList =
    n.completions.toList ++ n.engine.verdict.toList.map (now, ·) := by
  rw [expire, completions_absorb, Engine.outcome_onTimeout]

theorem address_expire (n : Node) (line : Level) (now : Nat) :
    (n.expire line now).engine.address = n.engine.address := by
  rw [engine_expire, Engine.address_onTimeout]

theorem timer_absorb (n : Node) {r : Reaction} {x : Entry} (hr : r.actions = x.actions) (now : Nat) :
    (n.absorb r now).timer = (x.wait.map (EdgeTimer.arm · now)).getD n.timer := by
  unfold absorb
  rw [hr]
  cases r.outcome <;> cases hl : x.level <;> cases hw : x.wait <;> simp [Entry.actions, hl, hw, act]

theorem pulling_absorb (n : Node) {r : Reaction} {x : Entry} (hr : r.actions = x.actions) (now : Nat) :
    (n.absorb r now).pulling = (x.level.map (· == .low)).getD n.pulling := by
  unfold absorb
  rw [hr]
  cases r.outcome <;> cases hl : x.level <;> cases hw : x.wait <;> simp [Entry.actions, hl, hw, act]

/-- An engine that enters a state leaves its node sound, if the node pulls the line only where the
new state allows it. -/
theorem sound_absorb_perform {n : Node} {m : Move} {line : Reading} {r : Reaction} (now : Nat)
    (hm : r = Engine.perform m line) (hfit : r.engine.Fit) (hs : r.engine.state ≠ .disabled)
    (hp : n.pulling = true → r.engine.state.Eases) :
    (n.absorb r now).Sound ∧ (n.absorb r now).timer.start = now := by
  obtain ⟨e, s, _, _⟩ := m
  have hr : r.engine = (e.enter s line).engine := by rw [hm]; rfl
  have ha : r.actions = (e.enter s line).actions := by rw [hm]; rfl
  have hst : r.engine.state = e.target s := by rw [hr, Engine.state_enter]
  rw [hst] at hs hp
  let e' : Engine := { (if s = .idle then e.rest else e) with state := e.target s }
  have henter : (e.enter s line).engine = (e'.entry e'.state line).engine := rfl
  have hact : r.actions = (e'.entry e'.state line).actions := ha
  have hstate : (n.absorb r now).engine.state = e.target s := by rw [engine_absorb, hst]
  obtain ⟨w, hw, hawaits⟩ := e'.awaits_entry line hs
  have htimer : (n.absorb r now).timer = .arm w now := by
    rw [timer_absorb n hact, hw]
    rfl
  have hpull := pulling_absorb n hact now
  obtain ⟨hlow, hdrive, hsilent⟩ := e'.level_entry e'.state line
  have hstart : (n.absorb r now).timer.start = now := by rw [htimer]; rfl
  refine ⟨⟨?_, ?_, ?_, ?_, ?_⟩, hstart⟩
  · rw [engine_absorb]
    exact hfit
  · intro _
    refine ⟨w, ?_, ?_⟩
    · rw [engine_absorb, hr, henter]
      exact hawaits
    · rw [hstart, htimer]
  · intro hd
    exact absurd (hstate.symm.trans hd) hs
  · intro u hu hl
    rw [hpull, hdrive u (hstate.symm.trans hu) hl]
    rfl
  · intro h
    rw [hstate]
    rw [hpull] at h
    cases hlev : (e'.entry e'.state line).level with
    | some l =>
      rw [hlev] at h
      cases l with
      | low => exact hlow hlev
      | high => cases h
    | none =>
      rw [hlev] at h
      obtain ⟨hnv, hans⟩ := hp h
      rcases hsilent hlev with hv | ⟨u, hu, hne⟩
      · exact absurd hv hnv
      · rw [show e.target s = .follower u from hu]
        exact hans u hu hne

section waits

variable {n : Node} {ed : Edge}

theorem Sound.timer_of_initiator (h : n.Sound) {s : Initiator} (hs : n.engine.state = .initiator s) :
    n.timer = .arm ⟨s.edge?, some (s.span n.engine.tx)⟩ n.timer.start := by
  obtain ⟨w, hw, ht⟩ := h.armed (by simp [hs])
  simp only [Engine.Awaits, hs] at hw
  rw [← hw]
  exact ht

theorem Sound.timer_of_follower (h : n.Sound) {s : Follower} (hs : n.engine.state = .follower s)
    (hd : s ≠ .debounce) :
    n.timer = .arm ⟨s.edge? n.engine.rx, some (s.span n.engine.rx)⟩ n.timer.start := by
  obtain ⟨w, hw, ht⟩ := h.armed (by simp [hs])
  cases s with
  | debounce => exact absurd rfl hd
  | _ =>
    simp only [Engine.Awaits, hs] at hw
    rw [← hw]
    exact ht

theorem Sound.timer_of_idle (h : n.Sound) (hs : n.engine.state = .idle) :
    n.timer = .arm (.onEdge .falling) n.timer.start := by
  obtain ⟨w, hw, ht⟩ := h.armed (by simp [hs])
  simp only [Engine.Awaits, hs] at hw
  rw [← hw]
  exact ht

theorem Sound.timer_of_debounce (h : n.Sound) (hs : n.engine.state = .follower .debounce) :
    ∃ q, 0 < q ∧ q ≤ GlitchCount.quietLong ∧ n.timer = .arm (.pause q) n.timer.start := by
  obtain ⟨w, hw, ht⟩ := h.armed (by simp [hs])
  simp only [Engine.Awaits, hs] at hw
  rcases hw with rfl | rfl
  · exact ⟨_, by decide, by decide, ht⟩
  · exact ⟨_, by decide, by decide, ht⟩

theorem Sound.deadline?_of_disabled (h : n.Sound) (hs : n.engine.state = .disabled) :
    n.timer.deadline? = none := by simp [EdgeTimer.deadline?, h.unarmed hs]

theorem Sound.deadline?_of_idle (h : n.Sound) (hs : n.engine.state = .idle) : n.timer.deadline? = none := by
  rw [h.timer_of_idle hs]
  rfl

theorem Sound.deadline?_of_initiator (h : n.Sound) {s : Initiator} (hs : n.engine.state = .initiator s) :
    n.timer.deadline? = some (n.timer.start + s.span n.engine.tx) := by
  rw [h.timer_of_initiator hs]
  rfl

theorem Sound.deadline?_of_follower (h : n.Sound) {s : Follower} (hs : n.engine.state = .follower s)
    (hd : s ≠ .debounce) : n.timer.deadline? = some (n.timer.start + s.span n.engine.rx) := by
  rw [h.timer_of_follower hs hd]
  rfl

theorem Sound.busy_of_deadline (h : n.Sound) {t : Nat} (ht : n.timer.deadline? = some t) :
    (∃ s, n.engine.state = .initiator s) ∨ ∃ s, n.engine.state = .follower s := by
  cases hs : n.engine.state with
  | disabled => simp [h.deadline?_of_disabled hs] at ht
  | idle => simp [h.deadline?_of_idle hs] at ht
  | initiator s => exact .inl ⟨s, rfl⟩
  | follower s => exact .inr ⟨s, rfl⟩

theorem Sound.waitsFor_of_disabled (h : n.Sound) (hs : n.engine.state = .disabled) :
    n.timer.waitsFor ed = false := by simp [EdgeTimer.waitsFor, h.unarmed hs]

theorem Sound.waitsFor_of_idle (h : n.Sound) (hs : n.engine.state = .idle) :
    n.timer.waitsFor ed = true ↔ ed = .falling := by
  rw [h.timer_of_idle hs]
  simp only [EdgeTimer.waitsFor, EdgeTimer.arm, Wait.onEdge, Option.any_some, beq_iff_eq, Option.some.injEq]
  exact eq_comm

theorem Sound.waitsFor_of_initiator (h : n.Sound) {s : Initiator} (hs : n.engine.state = .initiator s) :
    n.timer.waitsFor ed = true ↔ s.edge? = some ed := by
  rw [h.timer_of_initiator hs]
  simp [EdgeTimer.waitsFor, EdgeTimer.arm]

theorem Sound.waitsFor_of_follower (h : n.Sound) {s : Follower} (hs : n.engine.state = .follower s) :
    n.timer.waitsFor ed = true ↔ s.edge? n.engine.rx = some ed := by
  by_cases hd : s = .debounce
  · subst hd
    obtain ⟨q, -, -, hq⟩ := h.timer_of_debounce hs
    rw [hq]
    simp [EdgeTimer.waitsFor, EdgeTimer.arm, Wait.pause, Follower.edge?]
  · rw [h.timer_of_follower hs hd]
    simp [EdgeTimer.waitsFor, EdgeTimer.arm]

theorem Sound.not_pulling_of_waitsFor (h : n.Sound) (hw : n.timer.waitsFor ed = true) : n.pulling = false := by
  cases hp : n.pulling with
  | false => rfl
  | true =>
    have hm := h.free hp
    cases hs : n.engine.state with
    | disabled => simp [hs, State.mayPull] at hm
    | idle => simp [hs, State.mayPull] at hm
    | initiator s =>
      rw [h.waitsFor_of_initiator hs] at hw
      rw [hs] at hm
      cases s <;> simp_all [State.mayPull, Initiator.isLow, Initiator.edge?]
    | follower s =>
      rw [h.waitsFor_of_follower hs] at hw
      rw [hs] at hm
      cases s <;> simp_all [State.mayPull, Follower.answers, Follower.edge?]

end waits

section operations

variable {n : Node}

theorem Sound.expire (h : n.Sound) {t : Nat} (ht : n.timer.deadline? = some t) (line : Level) (now : Nat) :
    (n.expire line now).Sound ∧ (n.expire line now).timer.start = now := by
  have hb := h.busy_of_deadline ht
  have hd : n.engine.state ≠ .disabled := by rcases hb with ⟨s, hs⟩ | ⟨s, hs⟩ <;> simp [hs]
  obtain ⟨m, hm⟩ := Option.isSome_iff_exists.1 (Engine.deadlineMove?_isSome hb)
  obtain ⟨hs, hp⟩ := Engine.onTimeout_state (some line) hd
  have hr : n.engine.onTimeout (some line) = Engine.perform m (some line) := by
    simp only [Engine.onTimeout, hm]
  exact sound_absorb_perform now hr (h.fit.onTimeout (some line)) hs fun hpull => hp (h.free hpull)

theorem Sound.hear (h : n.Sound) {ed : Edge} (hw : n.timer.waitsFor ed = true) (now : Nat) :
    (n.hear now).Sound ∧ (n.hear now).timer.start = now := by
  have hb : n.engine.state = .idle ∨ (∃ s, n.engine.state = .initiator s ∧ s.edge?.isSome = true) ∨
      ∃ s, n.engine.state = .follower s ∧ (s.edge? n.engine.rx).isSome = true := by
    cases hs : n.engine.state with
    | disabled => simp [h.waitsFor_of_disabled hs] at hw
    | idle => exact .inl rfl
    | initiator s => exact .inr (.inl ⟨s, rfl, by rw [(h.waitsFor_of_initiator hs).1 hw]; rfl⟩)
    | follower s => exact .inr (.inr ⟨s, rfl, by rw [(h.waitsFor_of_follower hs).1 hw]; rfl⟩)
  have hd : n.engine.state ≠ .disabled := by
    rcases hb with hs | ⟨s, hs, -⟩ | ⟨s, hs, -⟩ <;> simp [hs]
  obtain ⟨m, hm⟩ := Option.isSome_iff_exists.1 (Engine.edgeMove?_isSome (n.timer.elapsed now) hb)
  have hr : n.engine.onCapture (n.timer.elapsed now) = Engine.perform m none := by
    simp only [Engine.onCapture, hm]
  refine sound_absorb_perform now hr (h.fit.onCapture _) (Engine.onCapture_state _ hd) fun hpull => ?_
  exact absurd (hpull.symm.trans (h.not_pulling_of_waitsFor hw)) (by decide)

theorem Sound.not_pulling_of_state (h : n.Sound) (hs : n.engine.state.mayPull = false) : n.pulling = false := by
  cases hp : n.pulling with
  | false => rfl
  | true => exact absurd (h.free hp) (by rw [hs]; decide)

theorem absorb_enable {n : Node} (hs : n.engine.state = .disabled) (hp : n.engine.isSending = false)
    (now : Nat) : n.absorb (n.engine.setEnabled true) now =
      { n with engine := n.engine.quit, timer := .arm (.onEdge .falling) now, pulling := false } := by
  simp [Engine.setEnabled, Engine.isEnabled, hs, Engine.enter, Engine.target, hp, Engine.quit, Engine.entry,
    Entry.actions, absorb, act]

theorem absorb_disable {n : Node} (hs : n.engine.state ≠ .disabled) (now : Nat) :
    n.absorb (n.engine.setEnabled false) now =
      { n with engine := { n.engine with state := .disabled, rx := {}, tx := {} }, timer := n.timer.stop,
               pulling := false } := by
  simp [Engine.setEnabled, Engine.isEnabled, hs, Engine.enter, Engine.target, Engine.entry, Entry.actions,
    absorb, act]

theorem absorb_setEnabled_same {n : Node} {on : Bool} (h : on = n.engine.isEnabled) (now : Nat) :
    n.absorb (n.engine.setEnabled on) now = n := by
  simp [Engine.setEnabled, h, absorb]

inductive Switched (n : Node) (now : Nat) : Node → Prop
  | same : n.Switched now n
  | on : n.engine.state = .disabled → n.engine.isSending = false → n.engine.quit.state = .idle →
      n.Switched now { n with engine := n.engine.quit, timer := .arm (.onEdge .falling) now, pulling := false }
  | off : n.engine.state ≠ .disabled → n.Switched now
      { n with engine := { n.engine with state := .disabled, rx := {}, tx := {} }, timer := n.timer.stop,
               pulling := false }

theorem Sound.switched (h : n.Sound) (on : Bool) (now : Nat) : n.Switched now (n.absorb (n.engine.setEnabled on) now) := by
  by_cases hc : on = n.engine.isEnabled
  · rw [absorb_setEnabled_same hc]
    exact .same
  cases on with
  | true =>
    have hs : n.engine.state = .disabled := by simpa [Engine.isEnabled] using hc
    have hp := h.fit.prompt (.inr hs)
    rw [absorb_enable hs hp]
    exact .on hs hp (by simp [Engine.quit, hp])
  | false =>
    have hs : n.engine.state ≠ .disabled := by simpa [Engine.isEnabled] using hc
    rw [absorb_disable hs]
    exact .off hs

theorem absorb_send_of_idle {n : Node} {m : Message} {r : Reaction} (hr : n.engine.send m = .ok r)
    (hs : n.engine.state = .idle) (now : Nat) : n.absorb r now =
      { n with engine := { n.engine.load m with state := .initiator .freeTime },
               timer := .arm (.within .falling (n.engine.load m).tx.freeTime.ticks) now, pulling := false } := by
  obtain ⟨-, hm, -, rfl⟩ := Engine.send_eq_ok_iff.1 hr
  rw [Engine.startSend_of_idle (by rw [Engine.load_state, hs]) (Engine.isSending_load hm)]
  simp [Engine.enter, Engine.target, Engine.entry, Engine.initiatorEntry, Entry.actions, absorb, act]

theorem absorb_send_of_ne_idle {n : Node} {m : Message} {r : Reaction} (hr : n.engine.send m = .ok r)
    (hs : n.engine.state ≠ .idle) (now : Nat) : n.absorb r now = { n with engine := n.engine.load m } := by
  obtain ⟨-, hm, -, rfl⟩ := Engine.send_eq_ok_iff.1 hr
  rw [Engine.startSend_of_ne_idle (by rw [Engine.load_state]; exact hs)]
  simp [absorb]

theorem Sound.setEnabled (h : n.Sound) (on : Bool) (now : Nat) :
    (n.absorb (n.engine.setEnabled on) now).Sound := by
  have hfit := h.fit.setEnabled on
  rw [← engine_absorb n _ now] at hfit
  have hx := h.switched on now
  generalize n.absorb (n.engine.setEnabled on) now = m at hx hfit
  cases hx with
  | same => exact h
  | on _ _ hq =>
    refine ⟨hfit, fun _ => ⟨_, ?_, rfl⟩, ?_, ?_, ?_⟩
    · simp [Engine.Awaits, hq]
    · simp [hq]
    · simp [hq]
    · simp
  | off =>
    refine ⟨hfit, ?_, ?_, ?_, ?_⟩
    · simp
    · simp [EdgeTimer.stop]
    · simp
    · simp

theorem Sound.send (h : n.Sound) {m : Message} {r : Reaction} (hr : n.engine.send m = .ok r) (now : Nat) :
    (n.absorb r now).Sound := by
  have hfit := h.fit.send hr
  rw [← engine_absorb n _ now] at hfit
  obtain ⟨hd, -, hp, -⟩ := Engine.send_eq_ok_iff.1 hr
  by_cases hs : n.engine.state = .idle
  · rw [absorb_send_of_idle hr hs] at hfit ⊢
    refine ⟨hfit, fun _ => ⟨_, ?_, rfl⟩, ?_, ?_, ?_⟩
    · simp [Engine.Awaits, Initiator.edge?, Initiator.span, Wait.within]
    · simp
    · simp [Initiator.isLow]
    · simp
  · rw [absorb_send_of_ne_idle hr hs] at hfit ⊢
    refine ⟨hfit, fun hn => ?_, ?_, ?_, ?_⟩
    · obtain ⟨w, hw, ht⟩ := h.armed (by rwa [Engine.load_state] at hn)
      refine ⟨w, ?_, ht⟩
      cases hs' : n.engine.state with
      | disabled => simp [Engine.isEnabled, hs'] at hd
      | idle => exact absurd hs' hs
      | initiator s => exact absurd (h.fit.busy s hs').1 (by simp [hp])
      | follower s =>
        simp only [Engine.Awaits, Engine.load_state, Engine.load_rx, hs'] at hw ⊢
        cases s <;> exact hw
    · simpa using h.unarmed
    · simpa using h.pulls
    · simpa using h.free

theorem Sound.setAddress (h : n.Sound) (a : LogicalAddress) :
    ({ n with engine := { n.engine with address := a } } : Node).Sound :=
  ⟨h.fit.setAddress a, h.armed, h.unarmed, h.pulls, h.free⟩

end operations

end Node
end HdmiCec
