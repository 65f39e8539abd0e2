import HdmiCec.Proofs.Engine.History

/-! Which states an engine enters. A call either leaves it where it is or makes it enter a state, and what comes
before that counts no glitch and leaves alone who spoke last (`entering`): both change only as a state is entered. -/
namespace HdmiCec

theorem Incoming.glitches_onEdge {r q : Incoming} {s : Follower} {t : Ticks} {next : State}
    (h : r.onEdge s t = some (q, next)) : q.glitches = r.glitches := by
  cases s with
  | startLow =>
    simp only [onEdge] at h
    split at h <;> cases h <;> rfl
  | startHigh =>
    simp only [onEdge] at h
    split at h <;> cases h <;> rfl
  | low f =>
    simp only [onEdge] at h
    split at h <;> cases h
    · unfold noteLow
      split <;> rfl
    · rfl
  | high f =>
    simp only [onEdge] at h
    split at h <;> cases h
    · unfold endBit
      split <;> rfl
    · rfl
  | ackLow | ackFinish =>
    cases h
    rfl
  | debounce | ackVerify => cases h

theorem Outgoing.mark_onDeadline {x y : Outgoing} {s u : Initiator} (h : x.onDeadline s = some (y, u)) :
    y.presentInitiator = x.presentInitiator := by
  cases s with
  | high f => cases f <;> cases h <;> rfl
  | _ => cases h <;> rfl

theorem Outgoing.mark_refused? {x y : Outgoing} (h : x.refused? = some y) : y.presentInitiator = x.presentInitiator := by
  unfold refused? at h
  split at h
  · cases h
    rfl
  · cases h

namespace Engine

def Turn.enters (s : State) (t : Turn) : Bool := t.did.notices.contains (.state s)

/-- An engine has counted no glitch since it was `e`, and knows as much about who spoke last. -/
structure Unmoved (e d : Engine) : Prop where
  glitches : d.rx.glitches = e.rx.glitches
  mark : d.tx.presentInitiator = e.tx.presentInitiator

inductive Entering (e : Engine) (r : Reaction) : Prop
  | stays : r.engine.state = e.state → e.Unmoved r.engine → (∀ u, .state u ∉ r.notices) → Entering e r
  | enters {d : Engine} {s : State} {line : Reading} : e.Unmoved d → r.engine = (d.enter s line).engine →
      (∀ u, .state u ∈ r.notices ↔ u = r.engine.state) →
      (s ≠ .disabled → r.actions = (d.enter s line).actions) → Entering e r

variable {e : Engine} {line : Reading} {t : Ticks} {m : Message}

theorem state_mem_notices_enter (e : Engine) (s : State) (line : Reading) (u : State) :
    .state u ∈ (e.enter s line).notices ↔ u = (e.enter s line).engine.state := by
  have hplain : ∀ d : Engine, .state u ∉ (d.entry (e.target s) line).notices := by
    intro d
    cases e.target s with
    | initiator v =>
      cases v with
      | low f | high f => cases f <;> exact List.not_mem_nil
      | _ => exact List.not_mem_nil
    | follower v =>
      cases v with
      | ackFinish =>
        simp only [entry, followerEntry]
        split
        · exact List.not_mem_nil
        · split <;> simp
      | _ => exact List.not_mem_nil
    | _ => exact List.not_mem_nil
  rw [state_enter]
  simp only [enter, List.mem_cons, Notice.state.injEq, hplain, or_false]

theorem entering_enter {d : Engine} (h : e.Unmoved d) (s : State) (line : Reading) : e.Entering (d.enter s line) :=
  .enters h rfl (fun u => state_mem_notices_enter d s line u) fun _ => rfl

theorem entering_perform {x : Move} (h : e.Unmoved x.engine) (hn : ∀ u, .state u ∉ x.notices) (line : Reading) :
    e.Entering (perform x line) :=
  .enters h rfl (fun u => by simp [perform, hn, state_mem_notices_enter]) fun _ => rfl

theorem unmoved_judgeAck (e : Engine) : e.Unmoved e.judgeAck.engine ∧ ∀ u, .state u ∉ e.judgeAck.notices := by
  unfold judgeAck
  split
  · split <;> exact ⟨⟨rfl, rfl⟩, by simp⟩
  · split
    · next h => exact ⟨⟨rfl, Outgoing.mark_refused? h⟩, by simp⟩
    · exact ⟨⟨rfl, rfl⟩, by simp⟩

theorem unmoved_deadlineMove? {x : Move} (h : e.deadlineMove? = some x) :
    e.Unmoved x.engine ∧ ∀ u, .state u ∉ x.notices := by
  cases hs : e.state with
  | disabled | idle =>
    simp only [deadlineMove?, hs] at h
    cases h
  | initiator s =>
    cases hd : e.tx.onDeadline s with
    | none =>
      simp only [deadlineMove?, hs, hd, Option.some.injEq] at h
      rw [← h]
      exact unmoved_judgeAck e
    | some p =>
      simp only [deadlineMove?, hs, hd, Option.some.injEq] at h
      rw [← h]
      exact ⟨⟨rfl, Outgoing.mark_onDeadline hd⟩, by simp⟩
  | follower s =>
    cases s with
    | ackVerify =>
      simp only [deadlineMove?, hs] at h
      split at h <;> cases h <;> exact ⟨⟨rfl, rfl⟩, by simp⟩
    | _ =>
      simp only [deadlineMove?, hs] at h
      cases h
      exact ⟨⟨rfl, rfl⟩, by simp⟩

theorem unmoved_edgeMove? {x : Move} (h : e.edgeMove? t = some x) : e.Unmoved x.engine ∧ ∀ u, .state u ∉ x.notices := by
  unfold edgeMove? at h
  split at h
  · cases h
    exact ⟨⟨rfl, rfl⟩, by simp⟩
  · cases h
    exact ⟨⟨rfl, rfl⟩, by simp⟩
  · cases h
    exact ⟨⟨rfl, rfl⟩, by simp⟩
  · cases h
    exact ⟨⟨rfl, rfl⟩, by simp⟩
  · split at h
    · next hr =>
      cases h
      exact ⟨⟨Incoming.glitches_onEdge hr, rfl⟩, by simp⟩
    · cases h
  · cases h

theorem entering_same : e.Entering { engine := e } := .stays rfl ⟨rfl, rfl⟩ fun _ => List.not_mem_nil

theorem entering_startSend {d : Engine} (hs : d.state = e.state) (h : e.Unmoved d) : e.Entering d.startSend := by
  unfold Engine.startSend
  split
  · exact entering_enter h _ _
  · exact .stays hs h fun _ => List.not_mem_nil

theorem entering_setEnabled (e : Engine) (on : Bool) : e.Entering (e.setEnabled on) := by
  unfold Engine.setEnabled
  split
  · exact entering_same
  · split
    · exact .enters ⟨rfl, rfl⟩ rfl (fun u => by simp [state_mem_notices_enter]) fun _ => rfl
    · exact .enters ⟨rfl, rfl⟩ rfl (fun u => by simp [state_mem_notices_enter]) fun h => absurd rfl h

/-- A call leaves an engine in its state, or makes it enter one. -/
theorem entering (e : Engine) (c : Call) : e.Entering (e.answer c).2 := by
  have loaded : ∀ m, (e.load m).state = e.state ∧ e.Unmoved (e.load m) := fun m =>
    ⟨e.load_state m, by rw [load_rx], by rw [load_tx]⟩
  cases c with
  | setAddress a =>
    by_cases ha : a.Assignable
    · simp only [answer, Engine.setAddress, if_pos ha]
      exact .stays rfl ⟨rfl, rfl⟩ (by simp)
    · simp only [answer, Engine.setAddress, if_neg ha]
      exact entering_same
  | setEnabled on => exact entering_setEnabled e on
  | submit m =>
    by_cases ha : e.Accepts m
    · rw [answer_submit ha]
      exact .stays (loaded m).1 (loaded m).2 (by simp)
    · obtain ⟨x, hx⟩ := answer_submit_refused ha
      rw [hx]
      exact entering_same
  | startSend => exact entering_startSend rfl ⟨rfl, rfl⟩
  | send m =>
    by_cases ha : e.Accepts m
    · rw [answer_send ha]
      cases entering_startSend (loaded m).1 (loaded m).2 with
      | stays hs h hn => exact .stays hs h (by simpa using hn)
      | enters h hr hn hact => exact .enters h hr (by simpa using hn) hact
    · obtain ⟨x, hx⟩ := answer_send_refused ha
      rw [hx]
      exact entering_same
  | capture t =>
    show e.Entering (e.onCapture t)
    unfold onCapture
    cases hm : e.edgeMove? t with
    | none => exact entering_same
    | some x => exact entering_perform (unmoved_edgeMove? hm).1 (unmoved_edgeMove? hm).2 none
  | timeout line =>
    show e.Entering (e.onTimeout line)
    unfold onTimeout
    cases hm : e.deadlineMove? with
    | none => exact entering_same
    | some x => exact entering_perform (unmoved_deadlineMove? hm).1 (unmoved_deadlineMove? hm).2 line

end Engine
end HdmiCec
