import HdmiCec.Proofs.Engine.Entering

/-! Noise on the idle bus. The longer a burst of glitches lasts, the longer the line is left alone after each of
them: the first three get a short quiet period, all later ones a long one, and only a valid start bit or switching
the engine off ends the burst (`quiet_by_burst`). What else happens in between is nothing to the count. -/
namespace HdmiCec

def State.glitches (g : GlitchCount) : State → GlitchCount
  | .disabled | .follower .startHigh => {}
  | .follower .debounce => g.note
  | _ => g

namespace Engine

def Turn.burst (n : Nat) (t : Turn) : Nat :=
  if t.enters .disabled || t.enters (.follower .startHigh) then 0
  else if t.enters (.follower .debounce) then n + 1 else n

/-- How often the engine has left the line alone after a glitch, since it was made, switched off or followed a
valid start bit. -/
def burst (ts : List Turn) : Nat := ts.foldl Turn.burst 0

variable {e : Engine} {c : Call} {line : Reading} {t : Ticks}

theorem glitches_entry (e : Engine) (s : State) (line : Reading) :
    (e.entry s line).engine.rx.glitches = s.glitches e.rx.glitches := by
  cases s with
  | disabled | idle => rfl
  | initiator s =>
    cases s with
    | low f | high f => cases f <;> rfl
    | _ => rfl
  | follower s =>
    cases s with
    | ackFinish =>
      show (e.followerEntry .ackFinish line).engine.rx.glitches = _
      rw [engine_ackFinish]
      rfl
    | _ => rfl

theorem glitches_target (e : Engine) (s : State) (g : GlitchCount) : (e.target s).glitches g = s.glitches g := by
  unfold target
  split
  · next h =>
    rw [h.1]
    rfl
  · rfl

theorem glitches_enter (e : Engine) (s : State) (line : Reading) :
    (e.enter s line).engine.rx.glitches = s.glitches e.rx.glitches := by
  simp only [enter]
  rw [glitches_entry, glitches_target]
  split <;> rfl

theorem Turn.enters_iff {s : State} : Turn.enters s ⟨e, c⟩ = true ↔ .state s ∈ (e.answer c).2.notices := by
  rw [Turn.enters, List.contains_iff_mem]
  rfl

/-- What a turn does to the glitches that an engine has counted is what it does to the burst. -/
theorem count_after {n : Nat} (h : e.rx.glitches.count = min n 3) (c : Call) :
    (e.after c).rx.glitches.count = min (Turn.burst n ⟨e, c⟩) 3 := by
  unfold Engine.after Turn.burst
  cases e.entering c with
  | stays _ hu hn =>
    have hnone : ∀ s, Turn.enters s ⟨e, c⟩ = false := fun s => Bool.eq_false_iff.2 fun hs => hn s (Turn.enters_iff.1 hs)
    simp only [hnone, hu.glitches, h, Bool.or_self, Bool.false_eq_true, if_false]
  | @enters d s line hu hr hn =>
    have hstate : ∀ u, Turn.enters u ⟨e, c⟩ = (u == (e.answer c).2.engine.state) := fun u => by
      rw [Bool.eq_iff_iff, Turn.enters_iff, hn, beq_iff_eq]
    simp only [hstate]
    rw [hr, glitches_enter, hu.glitches, ← d.glitches_target, ← d.state_enter s line]
    generalize (d.enter s line).engine.state = v
    cases v with
    | follower v =>
      cases v with
      | startHigh => rfl
      | debounce =>
        show e.rx.glitches.note.count = min (n + 1) 3
        rw [GlitchCount.count_note _ (by rw [h]; exact Nat.min_le_right _ _), h, GlitchCount.cutoff]
        omega
      | _ => simpa [State.glitches] using h
    | disabled => rfl
    | _ => simpa [State.glitches] using h

theorem count_run {n : Nat} (h : e.rx.glitches.count = min n 3) (calls : List Call) :
    (e.run calls).rx.glitches.count = min ((e.turns calls).foldl Turn.burst n) 3 := by
  induction calls generalizing e n with
  | nil => exact h
  | cons c rest ih => exact ih (count_after h c)

/-- Only a start bit and a glitch lead to where glitches are counted. -/
theorem calm_onEdge {r q : Incoming} {s : Follower} {next : State} (h : r.onEdge s t = some (q, next))
    (ht : StartPulse.ofLow t = .invalid) (g : GlitchCount) : next.glitches g = g := by
  cases s with
  | startLow =>
    simp only [Incoming.onEdge, ht] at h
    cases h
    rfl
  | startHigh | low =>
    simp only [Incoming.onEdge] at h
    split at h <;> cases h <;> rfl
  | high f =>
    simp only [Incoming.onEdge] at h
    split at h <;> cases h
    · unfold Incoming.endBit
      split <;> rfl
    · rfl
  | ackLow | ackFinish =>
    cases h
    rfl
  | debounce | ackVerify => cases h

theorem calm_edgeMove? {x : Move} (h : e.edgeMove? t = some x) (ht : StartPulse.ofLow t = .invalid) (g : GlitchCount) :
    x.next.glitches g = g := by
  unfold edgeMove? at h
  split at h
  · cases h
    rfl
  · cases h
    rfl
  · cases h
    rfl
  · cases h
    rfl
  · split at h
    · next hr =>
      cases h
      exact calm_onEdge hr ht g
    · cases h
  · cases h

/-- How long the line is left alone goes by the burst so far. -/
theorem actions_debounce {n : Nat} (h : e.rx.glitches.count = min n 3)
    (hs : Turn.enters (.follower .debounce) ⟨e, c⟩ = true) : (e.answer c).2.actions =
      [.arm (.pause (if n < 3 then GlitchCount.quietShort else GlitchCount.quietLong))] := by
  rw [Turn.enters_iff] at hs
  cases e.entering c with
  | stays _ _ hn => exact absurd hs (hn _)
  | @enters d s line hu hr hn hact =>
    rw [hn, hr, state_enter] at hs
    have hnext : s = .follower .debounce := by
      unfold target at hs
      split at hs
      · cases hs
      · exact hs.symm
    subst hnext
    rw [hact (by simp)]
    show [LineAction.arm (.pause d.rx.glitches.quietPeriod)] = _
    have hshort : min n 3 < 3 ↔ n < 3 := by omega
    simp only [hu.glitches, GlitchCount.quietPeriod, h, GlitchCount.cutoff, hshort]

/-- A pulse that is neither a start bit nor a glitch counts for nothing. -/
theorem glitches_onCapture (h : StartPulse.ofLow t = .invalid) :
    (e.onCapture t).engine.rx.glitches = e.rx.glitches := by
  unfold onCapture
  cases hm : e.edgeMove? t with
  | none => rfl
  | some x =>
    simp only [perform]
    rw [glitches_enter, calm_edgeMove? hm h, (unmoved_edgeMove? hm).1.glitches]

/-- Whatever an engine has been through: after a glitch it leaves the line alone for a short while if fewer than
three glitches of the burst came before, else for a long one. It counts no further than to three; a pulse that is
too long for a glitch and no start bit does not count, and a valid start bit is followed after any number. -/
theorem quiet_by_burst (calls : List Call) :
    let e := ({} : Engine).run calls
    let n := burst (({} : Engine).turns calls)
    (∀ c, Turn.enters (.follower .debounce) ⟨e, c⟩ = true → (e.answer c).2.actions =
      [.arm (.pause (if n < 3 then GlitchCount.quietShort else GlitchCount.quietLong))]) ∧
    e.rx.glitches.count = min n 3 ∧
    (∀ t : Nat, 200 ≤ t ∧ t < 3400 ∨ 4000 < t → (e.after (.capture t)).rx.glitches = e.rx.glitches) ∧
    ∀ t, StartPulse.ofLow t = .valid → e.state = .follower .startLow →
      (e.after (.capture t)).state = .follower .startHigh := by
  intro e n
  have hcount : e.rx.glitches.count = min n 3 := count_run rfl calls
  refine ⟨fun c hc => actions_debounce hcount hc, hcount,
    fun t ht => glitches_onCapture (StartPulse.ofLow_eq_invalid ht), fun t ht hs => ?_⟩
  show (e.onCapture t).engine.state = _
  rw [onCapture_startLow_valid hs (StartPulse.ofLow_eq_valid_iff.1 ht)]

/-- Three glitches, with a pulse that is none and a frame of its own between them, and one more. -/
theorem quiet_by_burst_fourth :
    let glitch : List Call := [.capture 0, .capture 150, .timeout none]
    let calls : List Call := [.setEnabled true] ++ glitch ++ [.capture 0, .capture 1500] ++ glitch ++
      [.send [4]] ++ .replicate 24 (.timeout (some .low)) ++ glitch ++ [.capture 0]
    let e := ({} : Engine).run calls
    burst (({} : Engine).turns calls) = 3 ∧ e.rx.glitches.count = 3 ∧ e.state = .follower .startLow ∧
      (e.answer (.capture 150)).2.actions = [.arm (.pause 500)] ∧
      (e.after (.capture 3700)).state = .follower .startHigh := by
  intro glitch calls
  have hburst : burst (({} : Engine).turns calls) = 3 := by decide +kernel
  have hs : (({} : Engine).run calls).state = .follower .startLow := by decide +kernel
  obtain ⟨hquiet, hcount, -, hstart⟩ := quiet_by_burst calls
  rw [hburst] at hquiet hcount
  exact ⟨hburst, hcount, hs, hquiet (.capture 150) (by decide +kernel), hstart 3700 rfl hs⟩

end Engine
end HdmiCec
