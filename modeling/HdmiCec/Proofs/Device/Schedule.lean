import HdmiCec.Proofs.Device.IdleRequests

/-! The order in which the tasks of a device run on one thread, as a history. A round is a turn of each task, and
however many rounds it takes to settle, the clock stands still meanwhile (`instantly_settle`). -/
namespace HdmiCec.Device

def Happening.isInstant : Happening → Bool
  | .pass _ => false
  | _ => true

/-- `e` comes of `d` while the clock stands still. -/
def Instantly (d e : Device) : Prop := ∃ hs : List Happening, (∀ x ∈ hs, x.isInstant = true) ∧ e = d.through hs

variable {d e f : Device}

namespace Instantly

theorem refl (d : Device) : d.Instantly d := ⟨[], by simp, rfl⟩

theorem trans (h : d.Instantly e) (h' : e.Instantly f) : d.Instantly f := by
  obtain ⟨u, hu, rfl⟩ := h
  obtain ⟨v, hv, rfl⟩ := h'
  exact ⟨u ++ v, List.forall_mem_append.2 ⟨hu, hv⟩, (through_append d u v).symm⟩

end Instantly

theorem instantly_happen (d : Device) {x : Happening} (h : x.isInstant = true) : d.Instantly (d.happen x) :=
  ⟨[x], by simpa using h, rfl⟩

theorem line_keeps (d : Device) {x : Happening} (h : x = .event ∨ x = .control) :
    (d.happen x).now = d.now ∧ (d.happen x).calls = d.calls ∧ (d.happen x).nextId = d.nextId := by
  obtain rfl | rfl := h
  · cases he : d.event? with
    | none =>
      rw [happen, takeEvent_of_none he]
      exact ⟨rfl, rfl, rfl⟩
    | some y =>
      obtain ⟨received, resultPending, lastResult, mailbox, notices, heq⟩ := d.onEvent_eq y.1 (d.engine.answer y.2).2
      rw [happen, takeEvent_of_event? he, heq]
      exact ⟨rfl, rfl, rfl⟩
  · cases hr : d.request? with
    | none =>
      rw [happen, takeControl_of_none hr]
      exact ⟨rfl, rfl, rfl⟩
    | some c =>
      obtain ⟨result, heq⟩ := takeControl_of_request? hr
      rw [happen, heq, absorb_eq]
      exact ⟨rfl, rfl, rfl⟩

theorem now_happen {x : Happening} (h : x.isInstant = true) : (d.happen x).now = d.now := by
  cases x with
  | event => exact (d.line_keeps (.inl rfl)).1
  | control => exact (d.line_keeps (.inr rfl)).1
  | turn id =>
    cases hs : d.stage? id with
    | none => rw [happen, pollCall_of_none hs]
    | some c =>
      obtain ⟨calls, results, heq⟩ := pollCall_of_stage? hs
      obtain ⟨engine, controls, lastResult, locked, mailbox, notices, hturn⟩ := (d.turn_goes c).eq
      rw [happen, heq, hturn]
  | host =>
    obtain ⟨received, resultPending, mailbox, calls, notices, heq⟩ := d.serveNext_eq
    rw [happen, heq]
  | cancel id =>
    obtain ⟨locked, heq⟩ := d.cancel_eq id
    rw [happen, heq]
  | setAddress a =>
    obtain ⟨notices, heq⟩ := d.happen_setAddress a
    rw [heq]
  | hold low => rw [happen, hold_eq]
  | pass k => cases h
  | _ => rfl

theorem Instantly.now (h : d.Instantly e) : e.now = d.now := by
  obtain ⟨hs, hi, rfl⟩ := h
  induction hs generalizing d with
  | nil => rfl
  | cons x rest ih =>
    rw [List.forall_mem_cons] at hi
    exact (ih hi.2).trans (now_happen hi.1)

theorem edgeSeen_takeEvent (d : Device) : d.takeEvent.edgeSeen = false := by
  cases he : d.event? with
  | none =>
    rw [takeEvent_of_none he]
    unfold event? at he
    split at he
    · cases he
    · next h => simpa using h
  | some x =>
    obtain ⟨received, resultPending, lastResult, mailbox, notices, heq⟩ := d.onEvent_eq x.1 (d.engine.answer x.2).2
    rw [takeEvent_of_event? he, heq]

theorem edgeSeen_control (d : Device) (c : Control) : (d.control c).edgeSeen = d.edgeSeen := by
  obtain ⟨result, heq⟩ := d.control_eq c
  rw [heq, absorb_eq]

theorem happen_control_lined (h : d.edgeSeen = false) (c : Control) (cs : List Control) :
    (d.lined (c :: cs)).happen .control = (d.control c).lined cs := by
  have hr : (d.lined (c :: cs)).request? = some c := by simp [request?, lined, h]
  rw [happen, takeControl, hr]
  exact control_lined d cs c

theorem foldl_control (h : d.edgeSeen = false) (cs : List Control) :
    cs.foldl control (d.lined []) = (d.lined cs).through (List.replicate cs.length .control) := by
  induction cs generalizing d with
  | nil => rfl
  | cons c cs ih =>
    rw [List.foldl_cons, control_lined, ih ((d.edgeSeen_control c).trans h), List.length_cons,
      List.replicate_succ, through, happen_control_lined h]

theorem takeControls_eq (h : d.edgeSeen = false) :
    d.takeControls = d.through (List.replicate d.controls.length .control) :=
  foldl_control h d.controls

theorem pollLine_eq (d : Device) :
    d.pollLine = d.through (.event :: List.replicate d.takeEvent.controls.length .control) :=
  takeControls_eq d.edgeSeen_takeEvent

theorem controls_pollLine (d : Device) : d.pollLine.controls = [] := by
  have keep : ∀ (cs : List Control) (e : Device), (cs.foldl control (e.lined [])).controls = [] := by
    intro cs
    induction cs with
    | nil => exact fun e => rfl
    | cons c cs ih =>
      intro e
      rw [List.foldl_cons, control_lined]
      exact ih (e.control c)
  exact keep d.takeEvent.controls d.takeEvent

theorem calls_pollLine (d : Device) : d.pollLine.calls = d.calls := by
  have keep : ∀ (n : Nat) (e : Device), (e.through (List.replicate n .control)).calls = e.calls := by
    intro n
    induction n with
    | zero => exact fun e => rfl
    | succ n ih => exact fun e => (ih _).trans (e.line_keeps (.inr rfl)).2.1
  rw [pollLine_eq]
  exact (keep _ _).trans (d.line_keeps (.inl rfl)).2.1

theorem instantly_pollLine (d : Device) : d.Instantly d.pollLine := by
  refine ⟨_, ?_, d.pollLine_eq⟩
  rw [List.forall_mem_cons]
  exact ⟨rfl, fun x hx => (List.eq_of_mem_replicate hx) ▸ rfl⟩

theorem instantly_polls (d : Device) (ids : List Nat) : d.Instantly (ids.foldl pollCall d) := by
  induction ids generalizing d with
  | nil => exact .refl d
  | cons id ids ih => exact (d.instantly_happen (x := .turn id) rfl).trans (ih (d.pollCall id))

theorem foldl_deliver (h : d.serving = true) (ms : List Message) : ms.foldl deliver { d with received := [] } =
    ({ d with received := ms } : Device).through (List.replicate ms.length .host) := by
  induction ms generalizing d with
  | nil => rfl
  | cons m ms ih =>
    have hnext : ({ d with received := m :: ms } : Device).happen .host = { d.deliver m with received := ms } := by
      simp [happen, serveNext, h, deliver]
    rw [List.length_cons, List.replicate_succ, through, hnext, ← ih (d := d.deliver m) h]
    rfl

theorem foldl_deliver_eq (d : Device) (ms : List Message) : ∃ mailbox calls notices, ms.foldl deliver d =
    { d with mailbox := mailbox, trace := { d.trace with calls := calls, notices := notices } } := by
  induction ms generalizing d with
  | nil => exact ⟨d.mailbox, d.trace.calls, d.trace.notices, rfl⟩
  | cons m ms ih =>
    obtain ⟨mailbox, calls, notices, heq⟩ := ih (d.deliver m)
    exact ⟨mailbox, calls, notices, heq⟩

theorem pollHost_of_serving (h : d.serving = true) : ∃ mailbox calls notices, d.pollHost =
    { d with
      received := [], resultPending := false, mailbox := mailbox,
      trace := { d.trace with calls := calls, notices := notices } } := by
  obtain ⟨mailbox, calls, notices, heq⟩ := foldl_deliver_eq { d with received := [] } d.received
  rw [pollHost, if_neg (by simp [h])]
  simp only [heq]
  split
  · exact ⟨mailbox, _, notices, rfl⟩
  · next hp => exact ⟨mailbox, calls, notices, by simp [hp]⟩

theorem instantly_pollHost (d : Device) : d.Instantly d.pollHost := by
  by_cases h : d.serving = true
  · have hall := foldl_deliver h d.received
    obtain ⟨mailbox, calls, notices, heq⟩ := foldl_deliver_eq { d with received := [] } d.received
    have hlast : d.pollHost = (d.received.foldl deliver { d with received := [] }).happen .host := by
      rw [pollHost, if_neg (by simp [h]), happen, serveNext, heq]
      simp [h]
    refine ⟨List.replicate d.received.length .host ++ [.host], ?_, ?_⟩
    · rw [List.forall_mem_append]
      exact ⟨fun x hx => (List.eq_of_mem_replicate hx) ▸ rfl, by simp [Happening.isInstant]⟩
    · rw [through_append, hlast, hall]
      rfl
  · rw [pollHost, if_pos h]
    exact .refl d

theorem instantly_round (d : Device) : d.Instantly d.round :=
  (d.instantly_pollLine.trans (instantly_polls _ _)).trans (instantly_pollHost _)

theorem instantly_rounds (k : Nat) (d : Device) : d.Instantly (rounds k d) := by
  induction k generalizing d with
  | zero => exact .refl d
  | succ k ih =>
    rw [rounds]
    split
    · exact .refl d
    · exact d.instantly_round.trans (ih d.round)

theorem instantly_settle (d : Device) : d.Instantly d.settle := instantly_rounds _ d

end HdmiCec.Device
