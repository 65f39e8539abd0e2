import HdmiCec.Proofs.Engine.AckSlots
import HdmiCec.Proofs.Engine.Attended

/-! A device with its timer, on a line that others drive. Time passes in ticks, and deadlines with it. A patient
device is one that lets no deadline end its wait for an edge while it follows a frame; once nothing is left of the
frame but the last ACK slot, patience makes no difference (`Keeps.pass_eq`). -/
namespace HdmiCec

open Engine (Call)

structure Listener where
  engine : Engine
  wait : Option Wait
  /-- Since the wait began. -/
  waited : Nat := 0
  /-- All events that the engine has been told of. -/
  told : List Call := []
  deriving DecidableEq

namespace Listener

def tell (l : Listener) (c : Call) : Listener where
  engine := l.engine.after c
  wait := Engine.Turn.leave l.wait ⟨l.engine, c⟩
  told := l.told ++ [c]

def later (l : Listener) (n : Nat) : Listener := { l with waited := l.waited + n }

def isFollowing (l : Listener) : Bool :=
  match l.engine.state with
  | .follower _ => true
  | _ => false

/-- A patient follower waits for an edge however long it takes. -/
def deadline? (patient : Bool) (l : Listener) : Option Nat :=
  l.wait.bind fun w => if patient && l.isFollowing && w.edge.isSome then none else w.timeout

section
variable (patient : Bool) (reads : List Call → Reading)

/-- The line is left as it is for a moment. A deadline that has come by then passes. -/
def tick (l : Listener) : Listener :=
  if (l.deadline? patient).any (· ≤ l.waited) then (l.tell (.timeout (reads l.told))).later 1 else l.later 1

/-- The line keeps its level for so long. An edge at its end still comes before a deadline there. -/
def pass : Nat → Listener → Listener
  | 0, l => l
  | n + 1, l => pass n (l.tick patient reads)

end

def sees (edge : Edge) (l : Listener) : Listener :=
  if l.wait.any (·.edge == some edge) then l.tell (.capture l.waited) else l

def Expects (l : Listener) (edge : Edge) : Prop := ∃ v, l.wait = some v ∧ v.edge = some edge

section
variable {patient : Bool} {reads : List Call → Reading} {l : Listener} {n d : Nat}

@[simp] theorem engine_later (l : Listener) (n : Nat) : (l.later n).engine = l.engine := rfl

theorem Expects.later {edge : Edge} (h : l.Expects edge) (n : Nat) : (l.later n).Expects edge := h

theorem later_later (l : Listener) (a b : Nat) : (l.later a).later b = l.later (a + b) := by
  simp only [later, Nat.add_assoc]

theorem pass_add (a b : Nat) (l : Listener) :
    l.pass patient reads (a + b) = (l.pass patient reads a).pass patient reads b := by
  induction a generalizing l with
  | zero => rw [Nat.zero_add]; rfl
  | succ a ih =>
    rw [Nat.succ_add]
    exact ih _

theorem pass_later (h : ∀ d, l.deadline? patient = some d → l.waited + n ≤ d) : l.pass patient reads n = l.later n := by
  induction n generalizing l with
  | zero => rfl
  | succ n ih =>
    have htick : l.tick patient reads = l.later 1 := by
      refine if_neg fun hdue => ?_
      obtain ⟨d, hd, hle⟩ := (Option.any_eq_true _ _).1 hdue
      have := h d hd
      have := of_decide_eq_true hle
      omega
    rw [pass, htick, ih, later_later, Nat.add_comm]
    intro d hd
    have := h d hd
    show l.waited + 1 + n ≤ d
    omega

theorem pass_deadline (hd : l.deadline? patient = some d) (hlt : d < l.waited + n) (hn : 0 < n) :
    l.pass patient reads n =
      ((l.tell (.timeout (reads l.told))).later 1).pass patient reads (n - (d - l.waited) - 1) := by
  have hbefore : l.pass patient reads (d - l.waited) = l.later (d - l.waited) := by
    by_cases hover : d ≤ l.waited
    · rw [Nat.sub_eq_zero_of_le hover]
      rfl
    · refine pass_later fun d' hd' => ?_
      rw [hd, Option.some.injEq] at hd'
      omega
  have hdue : ((l.later (d - l.waited)).deadline? patient).any (· ≤ (l.later (d - l.waited)).waited) = true := by
    show (l.deadline? patient).any (· ≤ l.waited + (d - l.waited)) = true
    rw [hd, Option.any_some, decide_eq_true_eq]
    omega
  have hsplit : n = (d - l.waited) + (n - (d - l.waited) - 1 + 1) := by omega
  calc l.pass patient reads n
      = (l.later (d - l.waited)).pass patient reads (n - (d - l.waited) - 1 + 1) := by
        rw [← hbefore, ← pass_add, ← hsplit]
    _ = _ := by
        rw [pass, tick, if_pos hdue]
        rfl

def leap (patient : Bool) (reads : List Call → Reading) : Nat → Nat → Listener → Listener
  | 0, n, l => l.later n
  | k + 1, n, l => match l.deadline? patient with
    | none => l.later n
    | some d =>
      if l.waited + n ≤ d ∨ n = 0 then l.later n
      else leap patient reads k (n - (d - l.waited) - 1) ((l.tell (.timeout (reads l.told))).later 1)

theorem pass_eq_leap {k : Nat} (h : n ≤ k) : l.pass patient reads n = l.leap patient reads k n := by
  induction k generalizing n l with
  | zero =>
    rw [Nat.le_zero.1 h]
    rfl
  | succ k ih =>
    rw [leap]
    cases hd : l.deadline? patient with
    | none => exact pass_later fun d hd' => by rw [hd] at hd'; cases hd'
    | some d =>
      simp only
      split
      · next hsoon =>
        rcases hsoon with hsoon | rfl
        · refine pass_later fun d' hd' => ?_
          rw [hd, Option.some.injEq] at hd'
          omega
        · rfl
      · rw [pass_deadline hd (by omega) (by omega)]
        exact ih (by omega)

end
end Listener

namespace Engine

variable {e : Engine} {w : Option Wait}

theorem Attends.exists_wait (h : e.Attends w) (hs : e.state ≠ .disabled) : ∃ v, w = some v ∧ e.Awaits v := by
  have hon : e.isEnabled = true := by simpa [isEnabled] using hs
  obtain ⟨v, hv⟩ := Option.isSome_iff_exists.1 (h.isSome.trans hon)
  exact ⟨v, hv, h.armed v hv⟩

theorem Attends.follower (h : e.Attends w) {s : Follower} (hs : e.state = .follower s) (hd : s ≠ .debounce) :
    w = some ⟨s.edge? e.rx, some (s.span e.rx)⟩ := by
  obtain ⟨v, rfl, hv⟩ := h.exists_wait (by rw [hs]; simp)
  unfold Awaits at hv
  rw [hs] at hv
  cases s with
  | debounce => exact absurd rfl hd
  | _ => rw [hv]

theorem Attends.idle (h : e.Attends w) (hs : e.state = .idle) : w = some (.onEdge .falling) := by
  obtain ⟨v, rfl, hv⟩ := h.exists_wait (by rw [hs]; simp)
  unfold Awaits at hv
  rw [hs] at hv
  rw [hv]

theorem Attends.initiator (h : e.Attends w) {s : Initiator} (hs : e.state = .initiator s) :
    w = some ⟨s.edge?, some (s.span e.tx)⟩ := by
  obtain ⟨v, rfl, hv⟩ := h.exists_wait (by rw [hs]; simp)
  unfold Awaits at hv
  rw [hs] at hv
  rw [hv]

/-- Follows nobody and watches for an edge. -/
def Watches (e : Engine) : Prop := e.state = .idle ∨ ∃ s, e.state = .initiator s ∧ s.edge?.isSome = true

theorem Attends.watches (h : e.Attends w) (hl : e.Watches) : ∃ v, w = some v ∧ v.edge = some .falling := by
  rcases hl with hs | ⟨s, hs, hedge⟩
  · exact ⟨_, h.idle hs, rfl⟩
  · refine ⟨_, h.initiator hs, ?_⟩
    rcases Initiator.of_edge? hedge with rfl | rfl | rfl <;> rfl

def Rests (e : Engine) : Prop := e.state = .idle ∨ e.state = .initiator .freeTime

theorem quit_rests (e : Engine) : e.quit.Rests := by
  rcases e.quit_state with ⟨hs, -⟩ | ⟨hs, -⟩
  · exact .inl hs
  · exact .inr hs

theorem Rests.watches (h : e.Rests) : e.Watches := h.imp id fun hs => ⟨_, hs, rfl⟩

def Settled (e : Engine) : Prop := ∀ s, e.state = .follower s → s.edge? e.rx ≠ some .rising

def Closing (e : Engine) : Prop :=
  ∀ s, e.state = .follower s → e.rx.isLast = true ∧ (s = .ackLow ∨ s = .ackVerify ∨ s = .ackFinish)

theorem Closing.settled (h : e.Closing) : e.Settled := by
  intro s hs
  obtain ⟨hlast, rfl | rfl | rfl⟩ := h s hs
  · simp [Follower.edge?]
  · simp [Follower.edge?]
  · simp [Follower.edge?, hlast]

theorem closing_of_not_follower (h : ∀ s, e.state ≠ .follower s) : e.Closing := fun s hs => absurd hs (h s)

theorem settled_ackFinish (hs : e.state = .follower .ackFinish) : e.Settled := by
  intro s hs'
  rw [hs] at hs'
  cases hs'
  simp only [Follower.edge?]
  split <;> simp

/-- No deadline leads to a state in which a follower waits for the end of a low level. -/
theorem settled_onTimeout (e : Engine) (line : Reading) : (e.onTimeout line).engine.Settled := by
  by_cases hf : ∃ s, e.state = .follower s
  · obtain ⟨s, hs⟩ := hf
    by_cases h1 : s = .ackLow
    · subst h1
      rw [onTimeout_follower_ackLow hs]
      rintro _ ⟨⟩
      simp [Follower.edge?]
    by_cases h2 : s = .ackVerify
    · subst h2
      cases hr : e.rx.refused with
      | true =>
        rw [onTimeout_refused hs hr]
        exact (closing_of_not_follower (ne_follower_quit e)).settled
      | false =>
        rw [onTimeout_follower_ackVerify hs hr]
        exact settled_ackFinish rfl
    · rw [onTimeout_follower hs h1 h2]
      exact (closing_of_not_follower (ne_follower_quit e)).settled
  · exact (closing_of_not_follower (not_follower_onTimeout (not_exists.1 hf) line)).settled

theorem Closing.onTimeout (h : e.Closing) (line : Reading) : (e.onTimeout line).engine.Closing := by
  by_cases hf : ∃ s, e.state = .follower s
  · obtain ⟨s, hs⟩ := hf
    obtain ⟨hlast, rfl | rfl | rfl⟩ := h s hs
    · rw [onTimeout_follower_ackLow hs]
      rintro _ ⟨⟩
      exact ⟨hlast, .inr (.inl rfl)⟩
    · cases hr : e.rx.refused with
      | true =>
        rw [onTimeout_refused hs hr]
        exact closing_of_not_follower (ne_follower_quit e)
      | false =>
        rw [onTimeout_follower_ackVerify hs hr]
        rintro _ ⟨⟩
        exact ⟨hlast, .inr (.inr rfl)⟩
    · rw [onTimeout_follower hs (by decide) (by decide)]
      exact closing_of_not_follower (ne_follower_quit e)
  · exact closing_of_not_follower (not_follower_onTimeout (not_exists.1 hf) line)

theorem Attends.edge_ne_rising (h : e.Attends w) (hs : e.Settled) {v : Wait} (hv : w = some v) :
    v.edge ≠ some .rising := by
  have hawaits := h.armed v hv
  unfold Awaits at hawaits
  cases hstate : e.state with
  | disabled => simp only [hstate] at hawaits
  | idle =>
    simp only [hstate] at hawaits
    rw [hawaits]
    simp [Wait.onEdge]
  | initiator s =>
    simp only [hstate] at hawaits
    rw [hawaits]
    cases s with
    | high f => cases f <;> simp [Initiator.edge?]
    | _ => simp [Initiator.edge?]
  | follower s =>
    simp only [hstate] at hawaits
    cases s with
    | debounce => rcases hawaits with rfl | rfl <;> simp [Wait.pause]
    | _ =>
      rw [hawaits]
      exact hs _ hstate

end Engine

namespace Listener

structure Keeps (l : Listener) : Prop where
  steady : l.engine.Steady
  attends : l.engine.Attends l.wait

variable {patient : Bool} {reads : List Call → Reading} {l : Listener} {n d : Nat}

theorem Keeps.tell (h : l.Keeps) {c : Call} (hc : Wait.Admits l.wait c) : (l.tell c).Keeps where
  steady := h.steady.after c
  attends := h.attends.after h.steady fun _ => hc

theorem Keeps.later (h : l.Keeps) (n : Nat) : (l.later n).Keeps := ⟨h.steady, h.attends⟩

theorem Keeps.tick (h : l.Keeps) : (l.tick patient reads).Keeps := by
  rw [Listener.tick]
  split
  · next hdue =>
    obtain ⟨d, hd, -⟩ := (Option.any_eq_true _ _).1 hdue
    refine (h.tell ?_).later 1
    rw [deadline?, Option.bind_eq_some_iff] at hd
    obtain ⟨w, hw, hd⟩ := hd
    refine ⟨w, hw, ?_⟩
    split at hd
    · cases hd
    · rw [hd]
      rfl
  · exact h.later 1

theorem Keeps.pass (h : l.Keeps) : (l.pass patient reads n).Keeps := by
  induction n generalizing l with
  | zero => exact h
  | succ n ih => exact ih h.tick

/-- While time passes an engine is told of deadlines at most. -/
theorem pass_preserves {P : Engine → Prop} (hP : ∀ e line, P e → P (e.onTimeout line).engine) (h : P l.engine) :
    P (l.pass patient reads n).engine := by
  induction n generalizing l with
  | zero => exact h
  | succ n ih =>
    refine ih ?_
    rw [tick]
    split
    · exact hP _ _ h
    · exact h

theorem Expects.sees {edge : Edge} (h : l.Expects edge) :
    l.sees edge = l.tell (.capture l.waited) := by
  obtain ⟨v, hv, he⟩ := h
  rw [Listener.sees, hv, Option.any_some, he, beq_self_eq_true, if_pos rfl]

theorem Expects.admits {edge : Edge} (h : l.Expects edge) (t : Ticks) :
    Wait.Admits l.wait (.capture t) := by
  obtain ⟨v, hv, he⟩ := h
  exact ⟨v, hv, by rw [he]; rfl⟩

theorem Keeps.expects (h : l.Keeps) (hw : l.engine.Watches) : l.Expects .falling := h.attends.watches hw

/-- A follower that is patient has no deadline where it waits for an edge. -/
theorem deadline?_of_wait {edge : Option Edge} {d' : Nat} (hw : l.wait = some ⟨edge, some d⟩)
    (hd : l.deadline? patient = some d') : d' = d := by
  rw [deadline?, hw, Option.bind_some] at hd
  split at hd
  · cases hd
  · exact (Option.some.inj hd).symm

theorem Keeps.sees_rising (h : l.Keeps) (hs : l.engine.Settled) : l.sees .rising = l := by
  rw [sees, if_neg]
  intro hany
  obtain ⟨v, hv, he⟩ := (Option.any_eq_true _ _).1 hany
  exact h.attends.edge_ne_rising hs hv (eq_of_beq he)

theorem Keeps.deadline?_eq (h : l.Keeps) (hc : l.engine.Closing) : l.deadline? false = l.deadline? true := by
  cases hf : l.isFollowing with
  | false => simp [deadline?, hf]
  | true =>
    obtain ⟨s, hs⟩ : ∃ s, l.engine.state = .follower s := by
      unfold isFollowing at hf
      split at hf
      · next s hs => exact ⟨s, hs⟩
      · cases hf
    have hedge : s ≠ .debounce ∧ s.edge? l.engine.rx = none := by
      obtain ⟨hlast, rfl | rfl | rfl⟩ := hc s hs
      · exact ⟨by decide, rfl⟩
      · exact ⟨by decide, rfl⟩
      · exact ⟨by decide, if_pos hlast⟩
    simp [deadline?, h.attends.follower hs hedge.1, hedge.2]

theorem Keeps.pass_eq (h : l.Keeps) (hc : l.engine.Closing) : l.pass false reads n = l.pass true reads n := by
  induction n generalizing l with
  | zero => rfl
  | succ n ih =>
    have htick : l.tick false reads = l.tick true reads := by rw [Listener.tick, Listener.tick, h.deadline?_eq hc]
    have hclosing : (l.pass true reads 1).engine.Closing :=
      pass_preserves (fun _ line he => he.onTimeout line) hc
    rw [Listener.pass, Listener.pass, htick]
    exact ih h.tick hclosing

end Listener
end HdmiCec
