import HdmiCec.Proofs.Engine.History
import HdmiCec.Proofs.Wire.Packed

/-! What calls do to the two buffers of an engine. Each call comes down to a few operations on the buffer of the
frame that is sent and on that of the frame that is followed (`Turn.sendOps`, `Turn.takeOps`), and both buffers are
what all of these make of new ones (`performs_run`). -/
namespace HdmiCec

namespace State

def deadlineOps : State → List BitBuffer.Op
  | initiator (.high f) => if f = .eom then [] else [.advance]
  | _ => []

def yieldOps : State → List BitBuffer.Op
  | initiator s => if s.edge?.isSome then [.rewind] else []
  | _ => []

def sendOps : State → List BitBuffer.Op
  | disabled => [.renew]
  | idle | initiator .startLow => [.rewind]
  | _ => []

/-- A bit is put down as soon as its low part has passed, and left behind at its end. -/
def edgeOps (s : State) (r : Incoming) (t : Ticks) : List BitBuffer.Op :=
  match s with
  | follower (.low f) => if f = .eom then [] else ((bitOfLow? t).map .put).toList
  | follower (.high f) => if f ≠ .eom ∧ (Symbol.ofBit (r.bit f)).ValidTotal r.lowTicks t then [.advance] else []
  | _ => []

def takeOps : State → List BitBuffer.Op
  | disabled => [.renew]
  | idle => [.rewind]
  | _ => []

end State

theorem Outgoing.buffer_onDeadline {x y : Outgoing} {s u : Initiator} (h : x.onDeadline s = some (y, u)) :
    y.buffer = (State.initiator s).deadlineOps.foldl BitBuffer.perform x.buffer := by
  cases s with
  | high f => cases f <;> cases h <;> rfl
  | _ => cases h <;> rfl

theorem Incoming.buffer_onEdge {r q : Incoming} {s : Follower} {t : Ticks} {next : State}
    (h : r.onEdge s t = some (q, next)) :
    q.buffer = ((State.follower s).edgeOps r t).foldl BitBuffer.perform r.buffer := by
  cases s with
  | startLow | startHigh =>
    simp only [onEdge] at h
    split at h <;> cases h <;> rfl
  | low f =>
    simp only [onEdge] at h
    simp only [State.edgeOps]
    split at h
    · next b hb =>
      cases h
      rw [hb, noteLow]
      split <;> rfl
    · next hb =>
      cases h
      rw [hb]
      split <;> rfl
  | high f =>
    simp only [onEdge] at h
    simp only [State.edgeOps]
    split at h
    · next ht =>
      cases h
      rw [endBit]
      by_cases hf : f = .eom
      · rw [if_pos hf, if_neg fun hc => hc.1 hf]
        rfl
      · rw [if_neg hf, if_pos ⟨hf, ht⟩]
        rfl
    · next ht =>
      cases h
      rw [if_neg fun hc => ht hc.2]
      rfl
  | ackLow | ackFinish =>
    cases h
    rfl
  | debounce | ackVerify => cases h

namespace Engine

namespace Turn

/-- The state that an engine is to enter. Setting about sending is left out, it touches no buffer. -/
def next? (t : Turn) : Option State :=
  match t.call with
  | .setEnabled on => if on = t.before.isEnabled then none else some (if on then .idle else .disabled)
  | .capture n => (t.before.edgeMove? n).map (·.next)
  | .timeout _ => t.before.deadlineMove?.map (·.next)
  | _ => none

def sendOps (t : Turn) : List BitBuffer.Op :=
  (match t.call with
    | .submit m | .send m => if t.reply == .ok then [.load m] else []
    | .capture _ => t.before.state.yieldOps
    | .timeout _ => t.before.state.deadlineOps
    | _ => []) ++ t.next?.elim [] State.sendOps

def takeOps (t : Turn) : List BitBuffer.Op :=
  (match t.call with
    | .capture n => t.before.state.edgeOps t.before.rx n
    | _ => []) ++ t.next?.elim [] State.takeOps

end Turn

/-- These operations are all that happens to the buffers on the way from `e` to `d`. -/
structure Performs (e : Engine) (send take : List BitBuffer.Op) (d : Engine) : Prop where
  sent : d.tx.buffer = send.foldl BitBuffer.perform e.tx.buffer
  taken : d.rx.buffer = take.foldl BitBuffer.perform e.rx.buffer

variable {e d k : Engine} {send take send' take' : List BitBuffer.Op} {t : Ticks} {x : Move}

theorem Performs.trans (h : e.Performs send take d) (h' : d.Performs send' take' k) :
    e.Performs (send ++ send') (take ++ take') k where
  sent := by rw [h'.sent, h.sent, List.foldl_append]
  taken := by rw [h'.taken, h.taken, List.foldl_append]

theorem performs_enter (e : Engine) (s : State) (line : Reading) :
    e.Performs s.sendOps s.takeOps (e.enter s line).engine := by
  cases s with
  | disabled => exact ⟨rfl, rfl⟩
  | idle =>
    rw [enter_idle]
    exact ⟨rfl, rfl⟩
  | initiator s =>
    cases s with
    | low f | high f => cases f <;> exact ⟨rfl, rfl⟩
    | _ => exact ⟨rfl, rfl⟩
  | follower s =>
    cases s with
    | ackFinish =>
      show e.Performs [] [] (followerEntry _ .ackFinish line).engine
      rw [engine_ackFinish]
      exact ⟨rfl, rfl⟩
    | _ => exact ⟨rfl, rfl⟩

theorem performs_judgeAck (e : Engine) : e.Performs [] [] e.judgeAck.engine := by
  unfold judgeAck
  split
  · split <;> exact ⟨rfl, rfl⟩
  · unfold Outgoing.refused?
    split
    · next h =>
      split at h <;> cases h
      exact ⟨rfl, rfl⟩
    · exact ⟨rfl, rfl⟩

theorem performs_deadlineMove? (h : e.deadlineMove? = some x) : e.Performs e.state.deadlineOps [] x.engine := by
  cases hs : e.state with
  | disabled | idle =>
    simp only [deadlineMove?, hs] at h
    cases h
  | initiator s =>
    simp only [deadlineMove?, hs] at h
    split at h
    · next hd =>
      cases h
      exact ⟨Outgoing.buffer_onDeadline hd, rfl⟩
    · next hd =>
      cases h
      cases s with
      | ackVerify => exact performs_judgeAck e
      | high f => cases f <;> cases hd
      | _ => cases hd
  | follower s =>
    cases s with
    | ackVerify =>
      simp only [deadlineMove?, hs] at h
      split at h <;> cases h <;> exact ⟨rfl, rfl⟩
    | _ =>
      simp only [deadlineMove?, hs] at h
      cases h
      exact ⟨rfl, rfl⟩

theorem performs_edgeMove? (h : e.edgeMove? t = some x) :
    e.Performs e.state.yieldOps (e.state.edgeOps e.rx t) x.engine := by
  unfold edgeMove? at h
  split at h
  · next hs =>
    cases h
    rw [hs]
    exact ⟨rfl, rfl⟩
  · next hs =>
    cases h
    rw [hs]
    exact ⟨rfl, rfl⟩
  · next hs =>
    cases h
    rw [hs]
    exact ⟨rfl, rfl⟩
  · next hs =>
    cases h
    rw [hs]
    exact ⟨rfl, rfl⟩
  · next hs =>
    split at h
    · next hr =>
      cases h
      rw [hs]
      exact ⟨rfl, Incoming.buffer_onEdge hr⟩
    · cases h
  · cases h

theorem ops_of_edgeMove?_none (h : e.edgeMove? t = none) : e.state.yieldOps = [] ∧ e.state.edgeOps e.rx t = [] := by
  have hdeaf := mt (edgeMove?_isSome t) (by rw [h]; decide)
  rw [not_or, not_or] at hdeaf
  obtain ⟨-, hinitiator, hfollower⟩ := hdeaf
  cases hs : e.state with
  | disabled | idle => exact ⟨rfl, rfl⟩
  | initiator s => exact ⟨if_neg fun hedge => hinitiator ⟨s, hs, hedge⟩, rfl⟩
  | follower s =>
    cases s with
    | low f | high f => exact absurd ⟨_, hs, rfl⟩ hfollower
    | _ => exact ⟨rfl, rfl⟩

theorem ops_of_deadlineMove?_none (h : e.deadlineMove? = none) : e.state.deadlineOps = [] := by
  have hdeaf := mt deadlineMove?_isSome (by rw [h]; decide)
  cases hs : e.state with
  | initiator s => exact absurd (.inl ⟨s, hs⟩) hdeaf
  | _ => rfl

theorem performs_onCapture (e : Engine) (t : Ticks) :
    e.Performs (Turn.sendOps ⟨e, .capture t⟩) (Turn.takeOps ⟨e, .capture t⟩) (e.onCapture t).engine := by
  simp only [Turn.sendOps, Turn.takeOps, Turn.next?, onCapture]
  cases hm : e.edgeMove? t with
  | none =>
    obtain ⟨hyield, hedge⟩ := ops_of_edgeMove?_none hm
    rw [hyield, hedge]
    exact ⟨rfl, rfl⟩
  | some x => exact (performs_edgeMove? hm).trans (performs_enter x.engine x.next none)

theorem performs_onTimeout (e : Engine) (line : Reading) :
    e.Performs (Turn.sendOps ⟨e, .timeout line⟩) (Turn.takeOps ⟨e, .timeout line⟩) (e.onTimeout line).engine := by
  simp only [Turn.sendOps, Turn.takeOps, Turn.next?, onTimeout]
  cases hm : e.deadlineMove? with
  | none =>
    rw [ops_of_deadlineMove?_none hm]
    exact ⟨rfl, rfl⟩
  | some x => exact (performs_deadlineMove? hm).trans (performs_enter x.engine x.next line)

theorem performs_setEnabled (e : Engine) (on : Bool) :
    e.Performs (Turn.sendOps ⟨e, .setEnabled on⟩) (Turn.takeOps ⟨e, .setEnabled on⟩) (e.setEnabled on).engine := by
  simp only [Turn.sendOps, Turn.takeOps, Turn.next?, setEnabled]
  split
  · exact ⟨rfl, rfl⟩
  · split
    · exact performs_enter e .idle none
    · exact performs_enter e .disabled none

theorem performs_startSend (e : Engine) : e.Performs [] [] e.startSend.engine := by
  rw [startSend_engine]
  split <;> exact ⟨rfl, rfl⟩

theorem performs_load (e : Engine) (m : Message) : e.Performs [.load m] [] (e.load m) :=
  ⟨by rw [load_tx]; rfl, by rw [load_rx]; rfl⟩

theorem performs_after (e : Engine) (c : Call) :
    e.Performs (Turn.sendOps ⟨e, c⟩) (Turn.takeOps ⟨e, c⟩) (e.after c) := by
  cases c with
  | setAddress a =>
    rw [after_setAddress]
    split <;> exact ⟨rfl, rfl⟩
  | setEnabled on => exact performs_setEnabled e on
  | submit m =>
    by_cases ha : e.Accepts m
    · have hops : Turn.sendOps ⟨e, .submit m⟩ = [.load m] := by
        simp [Turn.sendOps, Turn.next?, Turn.reply, answer_submit ha]
      rw [after_submit ha, hops]
      exact performs_load e m
    · obtain ⟨y, hy⟩ := answer_submit_refused ha
      have hops : Turn.sendOps ⟨e, .submit m⟩ = [] := by simp [Turn.sendOps, Turn.next?, Turn.reply, hy]
      rw [after_submit_refused ha, hops]
      exact ⟨rfl, rfl⟩
  | startSend => exact performs_startSend e
  | send m =>
    by_cases ha : e.Accepts m
    · have hops : Turn.sendOps ⟨e, .send m⟩ = [.load m] := by
        simp [Turn.sendOps, Turn.next?, Turn.reply, answer_send ha]
      rw [after, answer_send ha, hops]
      exact (performs_load e m).trans (performs_startSend (e.load m))
    · obtain ⟨y, hy⟩ := answer_send_refused ha
      have hops : Turn.sendOps ⟨e, .send m⟩ = [] := by simp [Turn.sendOps, Turn.next?, Turn.reply, hy]
      rw [after_send_refused ha, hops]
      exact ⟨rfl, rfl⟩
  | capture t => exact performs_onCapture e t
  | timeout line => exact performs_onTimeout e line

theorem performs_run (e : Engine) (calls : List Call) :
    e.Performs ((e.turns calls).flatMap Turn.sendOps) ((e.turns calls).flatMap Turn.takeOps) (e.run calls) := by
  induction calls generalizing e with
  | nil => exact ⟨rfl, rfl⟩
  | cons c rest ih => exact (performs_after e c).trans (ih (e.after c))

end Engine
end HdmiCec
