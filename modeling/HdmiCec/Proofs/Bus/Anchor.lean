import HdmiCec.Proofs.Bus.Run

/-! Where a node stands in time. On a line without noise every wait began a fixed while after the
last falling edge (`Node.Anchored`), so that deadlines of different nodes can be compared. -/
namespace HdmiCec

def Bus.lastFall (b : Bus) : Nat := b.fallingEdges.back?.getD 0

def Initiator.since (s : Initiator) (x : Outgoing) : Ticks :=
  match s with
  | freeTime | startLow | low _ | ackLow => 0
  | startHigh => Symbol.start.window.low
  | high f => lowDuration (x.bit f)
  | ackHigh => lowDuration true
  | ackVerify => sampleTime

def Initiator.ends (s : Initiator) (x : Outgoing) : Ticks :=
  match s with
  | freeTime => x.freeTime.ticks
  | startLow => Symbol.start.window.low
  | startHigh => 4500
  | low f => lowDuration (x.bit f)
  | high _ | ackVerify => nominalBit
  | ackLow => lowDuration true
  | ackHigh => sampleTime

theorem Initiator.since_add_span (s : Initiator) (x : Outgoing) : s.since x + s.span x = s.ends x := by
  cases s with
  | high f => exact lowDuration_add_highDuration (x.bit f)
  | ackHigh | ackVerify | startHigh => rfl
  | _ => exact Nat.zero_add _

theorem Initiator.ends_le {s : Initiator} (hs : s ≠ .freeTime) (x : Outgoing) : s.ends x ≤ 4500 ∧
    (s ≠ .startLow → s ≠ .startHigh → s.ends x ≤ nominalBit) := by
  cases s with
  | freeTime => exact absurd rfl hs
  | low f =>
    have := (lowDuration_bounds (x.bit f)).2
    simp only [ends, nominalBit]
    lia
  | startLow | startHigh => simp [ends, Symbol.window]
  | _ => simp [ends, lowDuration_true, nominalBit, sampleTime]

namespace Node

def Anchored (n : Node) (fall : Nat) : Prop :=
  match n.engine.state with
  | .disabled | .idle | .follower .debounce => True
  | .initiator .freeTime => fall ≤ n.timer.start
  | .initiator s => n.timer.start = fall + s.since n.engine.tx
  | .follower .startLow | .follower (.low _) | .follower .ackLow => n.timer.start = fall
  | .follower .startHigh =>
    n.timer.start = fall + n.engine.rx.lowTicks ∧ fall + 3400 ≤ n.timer.start ∧ n.timer.start ≤ fall + 4000
  | .follower (.high _) =>
    n.timer.start = fall + n.engine.rx.lowTicks ∧ fall + 300 ≤ n.timer.start ∧ n.timer.start ≤ fall + 1800
  | .follower .ackVerify => n.timer.start = fall + sampleTime
  -- The end of the last block goes on while another node may begin to speak.
  | .follower .ackFinish => n.timer.start = fall + Symbol.zero.window.low ∨
      n.engine.rx.isLast = true ∧ n.timer.start ≤ fall

/-- A sound node whose wait fits the clock and the last falling edge. -/
structure Placed (n : Node) (fall now : Nat) : Prop where
  sound : n.Sound
  begun : n.timer.start ≤ now
  onTime : ∀ t, n.timer.deadline? = some t → now ≤ t
  anchored : n.Anchored fall

variable {n : Node} {fall now t : Nat}

theorem Sound.start_le_deadline (h : n.Sound) (ht : n.timer.deadline? = some t) : n.timer.start ≤ t := by
  cases hs : n.engine.state with
  | disabled => simp [h.deadline?_of_disabled hs] at ht
  | idle => simp [h.deadline?_of_idle hs] at ht
  | initiator s =>
    simp only [h.deadline?_of_initiator hs, Option.some.injEq] at ht
    omega
  | follower s =>
    by_cases hd : s = .debounce
    · subst hd
      obtain ⟨q, -, -, hq⟩ := h.timer_of_debounce hs
      rw [hq] at ht
      simp only [EdgeTimer.deadline?, EdgeTimer.arm, Wait.pause, Option.bind_some, Option.map_some,
        Option.some.injEq] at ht
      omega
    · simp only [h.deadline?_of_follower hs hd, Option.some.injEq] at ht
      omega

theorem Placed.of_start (h : n.Sound) (hs : n.timer.start = now) (ha : n.Anchored fall) :
    n.Placed fall now where
  sound := h
  begun := by omega
  onTime := fun t ht => hs ▸ h.start_le_deadline ht
  anchored := ha

theorem Placed.at (h : n.Placed fall now) (hn : now ≤ t) (ht : ∀ u, n.timer.deadline? = some u → t ≤ u) :
    n.Placed fall t := ⟨h.sound, Nat.le_trans h.begun hn, ht, h.anchored⟩

theorem anchored_quit {e : Engine} (he : n.engine = e.quit) (h : fall ≤ n.timer.start) : n.Anchored fall := by
  unfold Anchored
  rcases e.quit_state with ⟨hq, -⟩ | ⟨hq, -⟩
  · rw [he, hq]
    trivial
  · rw [he, hq]
    exact h

theorem Anchored.congr {m : Node} (h : n.Anchored fall) (hs : m.engine.state = n.engine.state)
    (hr : m.engine.rx = n.engine.rx) (ht : m.timer = n.timer)
    (hx : ∀ s, n.engine.state = .initiator s → m.engine.tx = n.engine.tx) : m.Anchored fall := by
  unfold Anchored at h ⊢
  rw [hs, hr, ht]
  cases hst : n.engine.state with
  | initiator s =>
    rw [hst] at h
    rw [hx s hst]
    exact h
  | follower s =>
    rw [hst] at h
    cases s <;> exact h
  | _ => trivial

section deadlines

theorem Placed.freeTime_deadline (h : n.Placed fall now) (hs : n.engine.state = .initiator .freeTime)
    (ht : n.timer.deadline? = some t) : fall + 4800 ≤ t := by
  have ha := h.anchored
  simp only [Anchored, hs] at ha
  simp only [h.sound.deadline?_of_initiator hs, Option.some.injEq, Initiator.span] at ht
  have : 4800 ≤ n.engine.tx.freeTime.ticks := by cases n.engine.tx.freeTime <;> decide
  lia

theorem Placed.initiator_deadline (h : n.Placed fall now) {s : Initiator} (hs : n.engine.state = .initiator s)
    (hf : s ≠ .freeTime) : n.timer.deadline? = some (fall + s.ends n.engine.tx) := by
  have ha : n.timer.start = fall + s.since n.engine.tx := by
    have ha := h.anchored
    cases s with
    | freeTime => exact absurd rfl hf
    | _ => simpa only [Anchored, hs] using ha
  rw [h.sound.deadline?_of_initiator hs, ha, Nat.add_assoc, Initiator.since_add_span]

theorem Placed.now_of_deadline {s : Initiator} (h : n.Placed fall now) (hd : n.timer.deadline? = some now)
    (hs : n.engine.state = .initiator s) (hf : s ≠ .freeTime) : now = fall + s.ends n.engine.tx := by
  rw [h.initiator_deadline hs hf] at hd
  exact (Option.some.inj hd).symm

theorem Placed.speaks_deadline (h : n.Placed fall now) (hs : n.engine.state.speaks = true) :
    ∃ t, n.timer.deadline? = some t ∧ t ≤ fall + 4500 ∧
      (n.engine.state ≠ .initiator .startLow → n.engine.state ≠ .initiator .startHigh → t ≤ fall + 2400) := by
  cases hst : n.engine.state with
  | initiator s =>
    have hf : s ≠ .freeTime := by
      rintro rfl
      rw [hst] at hs
      cases hs
    have hle := Initiator.ends_le hf n.engine.tx
    refine ⟨_, h.initiator_deadline hst hf, Nat.add_le_add_left hle.1 fall, fun h1 h2 => ?_⟩
    exact Nat.add_le_add_left (hle.2 (by simpa using h1) (by simpa using h2)) fall
  | _ => simp [hst, State.speaks] at hs

theorem Placed.ackLow_deadline (h : n.Placed fall now) (hs : n.engine.state = .follower .ackLow) :
    n.timer.deadline? = some (fall + sampleTime) := by
  have ha : n.timer.start = fall := by simpa only [Anchored, hs] using h.anchored
  rw [h.sound.deadline?_of_follower hs (by simp), ha, Follower.span]

theorem Placed.ackVerify_deadline (h : n.Placed fall now) (hs : n.engine.state = .follower .ackVerify) :
    n.timer.deadline? = some (fall + Symbol.zero.window.low) := by
  have ha : n.timer.start = fall + sampleTime := by simpa only [Anchored, hs] using h.anchored
  rw [h.sound.deadline?_of_follower hs (by simp), ha, Nat.add_assoc]
  rfl

theorem Placed.answers_deadline (h : n.Placed fall now) (hs : n.engine.state.answers = true) :
    ∃ t, n.timer.deadline? = some t ∧ t ≤ fall + 1500 := by
  rcases State.answers_cases hs with hst | hst
  · exact ⟨_, h.ackLow_deadline hst, Nat.add_le_add_left (by decide) fall⟩
  · exact ⟨_, h.ackVerify_deadline hst, Nat.le_of_eq rfl⟩

/-- A follower gives up its frame before a new one can begin. -/
theorem Placed.framed_deadline (h : n.Placed fall now) (hs : n.engine.state.framed = true) :
    ∃ t, n.timer.deadline? = some t ∧ t ≤ fall + 4250 := by
  have ha := h.anchored
  cases hst : n.engine.state with
  | follower s =>
    cases s with
    | startLow => simp [hst, State.framed] at hs
    | startHigh => simp [hst, State.framed] at hs
    | debounce => simp [hst, State.framed] at hs
    | ackFinish =>
      simp only [Anchored, hst, Symbol.window] at ha
      refine ⟨_, h.sound.deadline?_of_follower hst (by simp), ?_⟩
      have : Follower.ackFinish.span n.engine.rx ≤ 2450 := by
        simp only [Follower.span]
        split <;> decide
      lia
    | _ =>
      simp only [Anchored, hst] at ha
      refine ⟨_, h.sound.deadline?_of_follower hst (by simp), ?_⟩
      simp only [Follower.span, sampleTime, ackHoldAfterSample, dataLowLimit, dataHighLimit, Symbol.window,
        tolerance] at ha ⊢
      lia
  | _ => simp [hst, State.framed] at hs

end deadlines

theorem Placed.elapsed (h : n.Placed fall now) (hw : n.timer.waitsFor .rising = true) :
    n.timer.start = fall ∧ n.timer.elapsed now = now - fall := by
  have hb := h.begun
  have ha := h.anchored
  have key : n.timer.start = fall ∧ ∃ t, n.timer.deadline? = some t ∧ t ≤ fall + 4000 := by
    rcases h.sound.waits_rising hw with hs | ⟨f, hs⟩
    · simp only [Anchored, hs] at ha
      refine ⟨ha, _, h.sound.deadline?_of_follower hs (by simp), ?_⟩
      rw [ha]
      simp [Follower.span, startLowLimit, Symbol.window, tolerance]
    · simp only [Anchored, hs] at ha
      refine ⟨ha, _, h.sound.deadline?_of_follower hs (by simp), ?_⟩
      rw [ha]
      simp [Follower.span, dataLowLimit, Symbol.window, tolerance]
  obtain ⟨hstart, t, ht, hle⟩ := key
  have hnow := h.onTime t ht
  refine ⟨hstart, ?_⟩
  rw [EdgeTimer.elapsed, hstart, Nat.mod_eq_of_lt]
  omega

/-- What a node is after a rising edge. It has measured the low pulse. -/
theorem Placed.hear_rising (h : n.Placed fall now) (hw : n.timer.waitsFor .rising = true) :
    (n.hear now).Placed fall now := by
  obtain ⟨hsound, hstart⟩ := h.sound.hear hw now
  obtain ⟨hfall, hel⟩ := h.elapsed hw
  have hb := h.begun
  refine .of_start hsound hstart ?_
  have quits : (n.hear now).engine = n.engine.quit → (n.hear now).Anchored fall := fun hq =>
    anchored_quit hq (by omega)
  rcases h.sound.waits_rising hw with hs | ⟨f, hs⟩
  · by_cases ht : Symbol.start.ValidLow (now - fall)
    · have he : (n.hear now).engine = { n.engine with
          state := .follower .startHigh, rx := { n.engine.rx with lowTicks := now - fall, glitches := {} } } := by
        rw [engine_hear, hel, Engine.onCapture_startLow_valid hs ht]
      rw [validLow_start] at ht
      simp only [Anchored, he, hstart]
      lia
    · have ht' : ¬ Symbol.start.ValidLow (n.timer.elapsed now) := by rwa [hel]
      rcases Engine.onCapture_startLow_invalid hs ht' with hq | hq
      · exact quits (by rw [engine_hear, hq])
      · simp only [Anchored, engine_hear, hq]
  · cases ht : bitOfLow? (now - fall) with
    | some v =>
      have he : (n.hear now).engine = { n.engine with
          state := .follower (.high f), rx := n.engine.rx.noteLow f v (now - fall) } := by
        rw [engine_hear, Engine.onCapture_low hs (by rw [hel]; exact ht), hel]
      have hl : (n.engine.rx.noteLow f v (now - fall)).lowTicks = now - fall := by
        unfold Incoming.noteLow
        split <;> rfl
      have hv : 300 ≤ now - fall ∧ now - fall ≤ 1800 := by
        rw [bitOfLow?_eq_some_iff] at ht
        cases v with
        | true => have := validLow_one.1 ht; lia
        | false => have := validLow_zero.1 ht; lia
      simp only [Anchored, he, hstart, hl]
      omega
    | none => exact quits (by rw [engine_hear, Engine.onCapture_low_invalid hs (by rw [hel]; exact ht)])

/-- A falling edge opens a frame or a bit for all who watch for one. -/
theorem Placed.hear_falling (h : n.Placed fall now) (hw : n.timer.waitsFor .falling = true) :
    (n.hear now).Placed now now ∧ (n.hear now).engine.state.speaks = false := by
  obtain ⟨hsound, hstart⟩ := h.sound.hear hw now
  have quits : (n.hear now).engine = n.engine.quit →
      (n.hear now).Placed now now ∧ (n.hear now).engine.state.speaks = false := by
    intro hq
    exact ⟨.of_start hsound hstart (anchored_quit hq (by omega)), by rw [hq]; exact Engine.not_speaks_quit _⟩
  have opens : ∀ s, (n.hear now).engine.state = .follower s →
      (s = .startLow ∨ s = .ackLow ∨ ∃ f, s = .low f) →
      (n.hear now).Placed now now ∧ (n.hear now).engine.state.speaks = false := by
    intro s hs hc
    refine ⟨.of_start hsound hstart ?_, by rw [hs]; rfl⟩
    rcases hc with rfl | rfl | ⟨f, rfl⟩ <;> simpa only [Anchored, hs] using hstart
  cases hs : n.engine.state with
  | disabled => simp [h.sound.waitsFor_of_disabled hs] at hw
  | idle => exact opens .startLow (by rw [engine_hear, Engine.startLow_of_edge _ (.inl hs)]) (.inl rfl)
  | initiator s =>
    rw [h.sound.waitsFor_of_initiator hs] at hw
    exact opens .startLow (by rw [engine_hear, Engine.startLow_of_edge _ (.inr ⟨s, hs, by rw [hw]; rfl⟩)]) (.inl rfl)
  | follower s =>
    rw [h.sound.waitsFor_of_follower hs] at hw
    cases s with
    | startHigh =>
      have he := Engine.onCapture_startHigh (t := n.timer.elapsed now) hs
      by_cases ht : Symbol.start.ValidTotal n.engine.rx.lowTicks (n.timer.elapsed now)
      · rw [if_pos ht] at he
        exact opens (.low .headerInit) (by rw [engine_hear, he]) (.inr (.inr ⟨_, rfl⟩))
      · rw [if_neg ht] at he
        exact quits (by rw [engine_hear, he])
    | high f =>
      by_cases ht : (Symbol.ofBit (n.engine.rx.bit f)).ValidTotal n.engine.rx.lowTicks (n.timer.elapsed now)
      · by_cases hf : f = .eom
        · subst hf
          exact opens .ackLow (by rw [engine_hear, Engine.onCapture_high_eom hs ht]) (.inr (.inl rfl))
        · rw [Incoming.bit, if_neg hf] at ht
          exact opens (.low _) (by rw [engine_hear, Engine.onCapture_high hs hf ht]) (.inr (.inr ⟨_, rfl⟩))
      · exact quits (by rw [engine_hear, Engine.onCapture_high_invalid hs ht])
    | ackFinish =>
      exact opens (.low .data) (by rw [engine_hear, Engine.onCapture_ackFinish hs]) (.inr (.inr ⟨_, rfl⟩))
    | _ => simp [Follower.edge?] at hw

/-- Who is neither told of a falling edge nor speaks or answers has nothing to do with it. -/
theorem Placed.keep_falling (h : n.Placed fall now)
    (hw : ¬ n.timer.waitsFor .falling = true) (hr : ¬ n.timer.waitsFor .rising = true)
    (hs : n.engine.state.speaks = false) (ha : n.engine.state.answers = false) : n.Placed now now := by
  refine ⟨h.sound, h.begun, h.onTime, ?_⟩
  have hb := h.begun
  cases hst : n.engine.state with
  | disabled => simp only [Anchored, hst]
  | idle => simp only [Anchored, hst]
  | initiator s =>
    rw [h.sound.waitsFor_of_initiator hst] at hw
    cases s <;> simp [hst, State.speaks, Initiator.edge?] at hw hs
  | follower s =>
    rw [h.sound.waitsFor_of_follower hst] at hw hr
    cases s with
    | debounce => simp only [Anchored, hst]
    | ackFinish =>
      have hl : n.engine.rx.isLast = true := by simpa [Follower.edge?] using hw
      simp only [Anchored, hst]
      exact .inr ⟨hl, hb⟩
    | _ => simp [hst, State.answers, Follower.answers, Follower.edge?] at hw hr ha

/-- What a deadline makes of a node. Either it begins to pull the line, and then the last falling
edge is long past, or nothing changes for the others but that it lets go. -/
structure Expired (n m : Node) (fall now : Nat) : Prop where
  placed : m.Placed (if m.engine.state.drives then now else fall) now
  drives : m.engine.state.drives = true → fall + 2400 ≤ now ∧ n.engine.state.mayPull = false ∧
    (n.engine.state.speaks = true ∨ n.engine.state = .initiator .freeTime)
  speaks : m.engine.state.speaks = true → m.engine.state.drives = false → n.engine.state.speaks = true
  pulls : m.pulling = true → m.engine.state.drives = false → n.pulling = true
  waits : m.timer.waitsFor .rising = false

section expired

variable {m : Node}

theorem Expired.not_drives {s : Follower} (h : Expired n m fall now) (hs : n.engine.state = .follower s) :
    m.engine.state.drives = false := by
  refine Bool.eq_false_iff.2 fun hd => ?_
  rcases (h.drives hd).2.2 with hsp | hsp <;> rw [hs] at hsp <;> cases hsp

theorem Expired.of_low {u : Initiator} (hs : m.Sound) (hstart : m.timer.start = now)
    (hm : m.engine.state = .initiator u) (hu : u.isLow = true) (hn : n.engine.state.mayPull = false)
    (hp : n.engine.state.speaks = true ∨ n.engine.state = .initiator .freeTime) (ht : fall + 2400 ≤ now) :
    Expired n m fall now := by
  have hd : m.engine.state.drives = true := by rw [hm]; exact hu
  refine ⟨?_, fun _ => ⟨ht, hn, hp⟩, ?_, ?_, ?_⟩
  · rw [if_pos hd]
    refine .of_start hs hstart ?_
    cases u <;> simp [Initiator.isLow] at hu <;> simpa [Anchored, hm, Initiator.since] using hstart
  · simp [hd]
  · simp [hd]
  · refine Bool.eq_false_iff.2 fun hw => ?_
    rcases hs.waits_rising hw with h | ⟨f, h⟩ <;> simp [hm] at h

theorem Expired.of_high (hs : m.Sound) (hstart : m.timer.start = now) (hm : m.engine.state.mayPull = false)
    (hf : ∀ s, m.engine.state = .follower s → s = .ackFinish) (ha : m.Anchored fall)
    (hp : m.engine.state.speaks = true → n.engine.state.speaks = true) : Expired n m fall now := by
  have hd : m.engine.state.drives = false := by
    cases hst : m.engine.state with
    | initiator s => simpa [hst, State.mayPull, State.drives] using hm
    | _ => rfl
  refine ⟨?_, ?_, fun h _ => hp h, ?_, ?_⟩
  · rw [hd]
    exact .of_start hs hstart ha
  · simp [hd]
  · intro h
    rw [hs.free h] at hm
    cases hm
  · refine Bool.eq_false_iff.2 fun hw => ?_
    rcases hs.waits_rising hw with h | ⟨f, h⟩
    · cases hf _ h
    · cases hf _ h

theorem Expired.of_quit {e : Engine} (hs : m.Sound) (hstart : m.timer.start = now) (hm : m.engine = e.quit)
    (ht : fall ≤ now) : Expired n m fall now := by
  refine .of_high hs hstart ?_ ?_ (anchored_quit hm (by omega)) ?_
  · rcases e.quit_state with ⟨hq, -⟩ | ⟨hq, -⟩ <;> rw [hm, hq] <;> rfl
  · intro s h
    rcases e.quit_state with ⟨hq, -⟩ | ⟨hq, -⟩ <;> rw [hm, hq] at h <;> cases h
  · rw [hm, Engine.not_speaks_quit]
    simp

end expired

/-- A follower that goes on answering leaves the line as it is. -/
theorem pulling_expire_ackLow (h : n.engine.state = .follower .ackLow) (line : Level) (now : Nat) :
    (n.expire line now).pulling = n.pulling := by
  simp [expire, Engine.onTimeout, Engine.deadlineMove?, h, Engine.perform, Engine.enter, Engine.target,
    Engine.entry, Engine.followerEntry, absorb, Entry.actions, act]

theorem Placed.expire_initiator {s : Initiator} (h : n.Placed fall now) (hd : n.timer.deadline? = some now)
    (hf : fall ≤ now) (hs : n.engine.state = .initiator s) (line : Level) :
    Expired n (n.expire line now) fall now := by
  obtain ⟨hsound, hstart⟩ := h.sound.expire hd line now
  have hm := engine_expire n line now
  by_cases hfree : s = .freeTime
  · subst hfree
    rw [Engine.onTimeout_freeTime hs] at hm
    have := h.freeTime_deadline hs hd
    exact .of_low hsound hstart (by rw [hm]) rfl (by rw [hs]; rfl) (.inr hs) (by omega)
  have hnow := h.now_of_deadline hd hs hfree
  have low : ∀ u : Initiator, (n.expire line now).engine.state = .initiator u → u.isLow = true →
      n.engine.state.mayPull = false → nominalBit ≤ s.ends n.engine.tx →
      Expired n (n.expire line now) fall now := by
    intro u hu hlow hp hle
    refine .of_low hsound hstart hu hlow hp (.inl ?_) ?_
    · rw [hs]
      cases s <;> first | rfl | exact absurd rfl hfree
    · rw [hnow]
      exact Nat.add_le_add_left hle fall
  have high : ∀ u : Initiator, (n.expire line now).engine.state = .initiator u → u.isLow = false → u ≠ .freeTime →
      u.since (n.expire line now).engine.tx = s.ends n.engine.tx → Expired n (n.expire line now) fall now := by
    intro u hu hhigh hne hsince
    refine .of_high hsound hstart (by rw [hu]; exact hhigh) (by simp [hu]) ?_ fun _ => ?_
    · have ha : (n.expire line now).timer.start = fall + u.since (n.expire line now).engine.tx := by
        rw [hstart, hsince, hnow]
      unfold Anchored
      rw [hu]
      cases u <;> first | exact ha | exact absurd rfl hne
    · rw [hs]
      cases s <;> first | rfl | exact absurd rfl hfree
  cases s with
  | freeTime => exact absurd rfl hfree
  | startLow =>
    rw [Engine.onTimeout_startLow hs] at hm
    exact high .startHigh (by rw [hm]) rfl (by simp) rfl
  | startHigh =>
    rw [Engine.onTimeout_startHigh hs] at hm
    exact low _ (by rw [hm]) rfl (by rw [hs]; rfl) (by simp [Initiator.ends, nominalBit])
  | low f =>
    rw [Engine.onTimeout_low hs] at hm
    exact high (.high f) (by rw [hm]) rfl (by simp) (by rw [hm]; rfl)
  | high f =>
    by_cases he : f = .eom
    · subst he
      rw [Engine.onTimeout_high_eom hs] at hm
      exact low _ (by rw [hm]) rfl (by rw [hs]; rfl) (Nat.le_of_eq rfl)
    · rw [Engine.onTimeout_high hs he] at hm
      exact low _ (by rw [hm]) rfl (by rw [hs]; rfl) (Nat.le_of_eq rfl)
  | ackLow =>
    rw [Engine.onTimeout_ackLow hs] at hm
    exact high .ackHigh (by rw [hm]) rfl (by simp) rfl
  | ackHigh =>
    rw [Engine.onTimeout_ackHigh hs] at hm
    exact high .ackVerify (by rw [hm]) rfl (by simp) rfl
  | ackVerify =>
    cases hack : n.engine.tx.acked with
    | true =>
      cases hl : n.engine.tx.isLast with
      | true => exact .of_quit hsound hstart (hm.trans (Engine.onTimeout_sent hs hack hl)) hf
      | false =>
        rw [Engine.onTimeout_acked hs hack hl] at hm
        exact low _ (by rw [hm]) rfl (by rw [hs]; rfl) (Nat.le_of_eq rfl)
    | false =>
      by_cases hr : n.engine.tx.resends < Outgoing.maxResends
      · rw [Engine.onTimeout_resend hs hack hr] at hm
        refine .of_high hsound hstart (by rw [hm]; rfl) (by simp [hm]) ?_ (by simp [hs, State.speaks])
        simp only [Anchored, hm, hstart]
        exact hf
      · exact .of_quit hsound hstart (hm.trans (Engine.onTimeout_failed hs hack hr)) hf

theorem Placed.expire_follower {s : Follower} (h : n.Placed fall now) (hd : n.timer.deadline? = some now)
    (hf : fall ≤ now) (hs : n.engine.state = .follower s) (line : Level) :
    Expired n (n.expire line now) fall now := by
  obtain ⟨hsound, hstart⟩ := h.sound.expire hd line now
  have hm := engine_expire n line now
  cases s with
  | ackLow =>
    rw [h.ackLow_deadline hs, Option.some.injEq] at hd
    rw [Engine.onTimeout_follower_ackLow hs] at hm
    have hdrives : (n.expire line now).engine.state.drives = false := by rw [hm]; rfl
    refine ⟨?_, by simp [hdrives], by simp [hm, State.speaks], ?_, ?_⟩
    · rw [hdrives]
      refine .of_start hsound hstart ?_
      simpa only [Anchored, hm, hstart, Bool.false_eq_true, if_false] using hd.symm
    · intro hp _
      rwa [pulling_expire_ackLow hs] at hp
    · refine Bool.eq_false_iff.2 fun hw => ?_
      rcases hsound.waits_rising hw with h | ⟨f, h⟩ <;> simp [hm] at h
  | ackVerify =>
    rw [h.ackVerify_deadline hs, Option.some.injEq] at hd
    cases hr : n.engine.rx.refused with
    | true => exact .of_quit hsound hstart (hm.trans (Engine.onTimeout_refused hs hr)) hf
    | false =>
      rw [Engine.onTimeout_follower_ackVerify hs hr] at hm
      refine .of_high hsound hstart (by rw [hm]; rfl) (by simp [hm]) ?_ (by simp [hm, State.speaks])
      simp only [Anchored, hm, hstart]
      exact .inl hd.symm
  | _ => exact .of_quit hsound hstart (hm.trans (Engine.onTimeout_follower hs (by simp) (by simp))) hf

theorem Placed.expire (h : n.Placed fall now) (hd : n.timer.deadline? = some now) (hf : fall ≤ now)
    (line : Level) : Expired n (n.expire line now) fall now := by
  rcases h.sound.busy_of_deadline hd with ⟨s, hs⟩ | ⟨s, hs⟩
  · exact h.expire_initiator hd hf hs line
  · exact h.expire_follower hd hf hs line

end Node
end HdmiCec
