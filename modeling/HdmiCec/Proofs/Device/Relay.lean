import HdmiCec.Proofs.Device.Happenings
import HdmiCec.Proofs.Inbox.Service
import Mathlib.Data.List.Flatten
import Mathlib.Data.List.Induction

/-! How messages and send results get from the engine to the host, whatever the order in which the tasks
take their turns (`relay_contract`). Messages pass two places: the few that the host's task has yet to take,
where the newest is refused when it is full, and the mailbox, where the newest takes the place of all others
when it does not fit. One equation a turn for each of them carries the account (`Turn.handled`). -/
namespace HdmiCec

namespace Device

def desk (d : Device) : Desk ByteRing.defaultCapacity :=
  { mailbox := d.mailbox, config := d.config, off := d.off }

def opened (c : Config) (off : Bool) : Device := { config := c, off := off }

namespace Turn

def outcome? (t : Turn) : Option Completion :=
  match t.happening with
  | .event => t.before.event?.bind fun x => (t.before.engine.answer x.2).2.outcome
  | _ => none

def reported (t : Turn) : List Message :=
  match t.outcome? with
  | some (.received m) => [m]
  | _ => []

def result? (t : Turn) : Option EventBits := t.outcome?.bind EventBits.ofCompletion?

def bits (t : Turn) : EventBits := t.result?.getD 0

def kept (t : Turn) : List Message :=
  if t.before.received.length < receivedCapacity then t.reported else []

def taken (t : Turn) : List Message :=
  match t.happening with
  | .host => if t.before.serving then t.before.received.take 1 else []
  | _ => []

/-- The host's task passes on that a send is over. It does so only when no message waits for it. -/
def passesOn (t : Turn) : Bool :=
  t.happening == .host && t.before.serving && t.before.received.isEmpty && t.before.resultPending

def errands (t : Turn) : List Desk.Step :=
  match t.happening with
  | .event => t.outcome?.toList.map .record
  | .host => t.taken.map fun m => .handle (.received m)
  | .turn id => if t.before.stage? id = some (.enabling false) ∧ t.before.hasRoom = true then [.reset] else []
  | .pop => [.pop]
  | .takeEvents => [.takeEvents]
  | .setOff off => [.setOff off]
  | _ => []

def visits (t : Turn) : List (Desk.Turn ByteRing.defaultCapacity) := t.before.desk.turns t.errands

def fetched (t : Turn) : List Message :=
  match t.happening with
  | .pop => t.before.mailbox.pop.2.1.toList
  | _ => []

def lost (t : Turn) : List Message := t.visits.flatMap Desk.Turn.lost

def gone (t : Turn) : List Message := t.fetched ++ t.lost

def told (t : Turn) : List (HostCall × Mailbox ByteRing.defaultCapacity) :=
  t.visits.flatMap Desk.Turn.told ++ if t.passesOn then [(.eventsPending, t.after.mailbox)] else []

structure Handled (t : Turn) : Prop where
  desk : t.after.desk = t.before.desk.run t.errands
  received : t.before.received ++ t.kept = t.taken ++ t.after.received
  pending : t.after.resultPending = (t.before.resultPending && !t.passesOn || t.result?.isSome)
  calls : t.after.trace.calls = t.before.trace.calls ++ t.told.map (·.1)

variable {d : Device}

theorem told_of_ne_host {t : Turn} (h : t.happening ≠ .host) : t.told = [] := by
  obtain ⟨d, x⟩ := t
  have hword : (⟨d, x⟩ : Turn).passesOn = false := by simp [passesOn, h]
  rw [told, hword]
  cases x with
  | host => exact absurd rfl h
  | event =>
    simp only [visits, errands]
    cases (⟨d, .event⟩ : Turn).outcome? <;> rfl
  | turn id =>
    simp only [visits, errands]
    split <;> rfl
  | _ => rfl

/-- Between the engine and the mailbox nothing moves but where the engine is told of an event or the host's
task takes something. -/
theorem Handled.of_aside {t : Turn} (hevent : t.happening ≠ .event) (hhost : t.happening ≠ .host)
    (hdesk : t.after.desk = t.before.desk.run t.errands) (hreceived : t.after.received = t.before.received)
    (hpending : t.after.resultPending = t.before.resultPending)
    (hcalls : t.after.trace.calls = t.before.trace.calls) : t.Handled := by
  obtain ⟨d, x⟩ := t
  have houtcome : (⟨d, x⟩ : Turn).outcome? = none := by
    cases x with
    | event => exact absurd rfl hevent
    | _ => rfl
  have hreported : (⟨d, x⟩ : Turn).kept = [] := by simp [kept, reported, houtcome]
  have htaken : (⟨d, x⟩ : Turn).taken = [] := by
    cases x with
    | host => exact absurd rfl hhost
    | _ => rfl
  have hword : (⟨d, x⟩ : Turn).passesOn = false := by simp [passesOn, hhost]
  refine ⟨hdesk, ?_, ?_, ?_⟩
  · rw [hreported, htaken, hreceived, List.append_nil, List.nil_append]
  · rw [hpending, hword, result?, houtcome]
    simp
  · rw [hcalls, told_of_ne_host hhost]
    simp

theorem handled_event (d : Device) : Handled ⟨d, .event⟩ := by
  have htold : (⟨d, .event⟩ : Turn).told = [] := told_of_ne_host (by simp)
  have htaken : (⟨d, .event⟩ : Turn).taken = [] := rfl
  have hword : (⟨d, .event⟩ : Turn).passesOn = false := rfl
  cases he : d.event? with
  | none =>
    have hafter : (⟨d, .event⟩ : Turn).after = d := takeEvent_of_none he
    have houtcome : (⟨d, .event⟩ : Turn).outcome? = none := by simp [outcome?, he]
    constructor <;> simp [hafter, errands, houtcome, kept, reported, htaken, result?, hword, htold, Desk.run]
  | some x =>
    obtain ⟨time, c⟩ := x
    have hafter : (⟨d, .event⟩ : Turn).after = d.onEvent time (d.engine.answer c).2 := takeEvent_of_event? he
    have houtcome : (⟨d, .event⟩ : Turn).outcome? = (d.engine.answer c).2.outcome := by simp [outcome?, he]
    generalize (d.engine.answer c).2 = r at hafter houtcome
    rw [onEvent, absorb_eq] at hafter
    cases ho : r.outcome with
    | none =>
      simp only [ho] at hafter houtcome
      constructor <;> simp [hafter, errands, houtcome, kept, reported, htaken, result?, hword, htold, Desk.run, desk]
    | some o =>
      have herrands : (⟨d, .event⟩ : Turn).errands = [.record o] := by simp [errands, houtcome, ho]
      have hresult : (⟨d, .event⟩ : Turn).result? = EventBits.ofCompletion? o := by simp [result?, houtcome, ho]
      simp only [ho] at hafter houtcome
      cases o with
      | received m =>
        by_cases hroom : d.received.length < receivedCapacity
        · simp only [settleOutcome, if_pos hroom] at hafter
          constructor <;>
            simp [hafter, herrands, houtcome, kept, hroom, reported, htaken, hresult, EventBits.ofCompletion?, hword,
              htold, Desk.run, Desk.perform, Mailbox.record?, desk]
        · simp only [settleOutcome, if_neg hroom, report] at hafter
          constructor <;>
            simp [hafter, herrands, kept, hroom, htaken, hresult, EventBits.ofCompletion?, hword, htold, Desk.run,
              Desk.perform, Mailbox.record?, desk]
      | sendOk | sendFailed =>
        simp only [settleOutcome] at hafter
        constructor <;>
          simp [hafter, herrands, houtcome, kept, reported, htaken, hresult, EventBits.ofCompletion?, hword, htold,
            Desk.run, Desk.perform, Mailbox.record?, desk, Mailbox.raiseEvents]

theorem handled_host (d : Device) : Handled ⟨d, .host⟩ := by
  have hkept : (⟨d, .host⟩ : Turn).kept = [] := by simp [kept, reported, outcome?]
  have hresult : (⟨d, .host⟩ : Turn).result? = none := rfl
  by_cases hserving : d.serving = true
  · cases hr : d.received with
    | nil =>
      by_cases hp : d.resultPending = true <;> constructor <;>
        simp [after, happen, serveNext, hserving, hr, hp, hkept, hresult, errands, taken, passesOn, told, visits,
          Desk.run, Desk.turns, desk]
    | cons m rest =>
      constructor <;>
        simp [after, happen, serveNext, hserving, hr, hkept, hresult, errands, taken, passesOn, told, visits,
          Desk.run, Desk.turns, Desk.perform, Desk.handle, desk, deliver, Desk.Turn.told, Delivery.calls]
  · constructor <;>
      simp [after, happen, serveNext, hserving, hkept, hresult, errands, taken, passesOn, told, visits, Desk.run,
        Desk.turns, desk]

theorem handled (t : Turn) : t.Handled := by
  obtain ⟨d, h⟩ := t
  have aside := @Handled.of_aside ⟨d, h⟩
  cases h with
  | event => exact handled_event d
  | host => exact handled_host d
  | control =>
    cases hr : d.request? with
    | none =>
      have hafter : (⟨d, .control⟩ : Turn).after = d := takeControl_of_none hr
      exact aside (by simp) (by simp) (by rw [hafter]; rfl) (by rw [hafter]) (by rw [hafter]) (by rw [hafter])
    | some c =>
      obtain ⟨result, hafter⟩ : ∃ result, (⟨d, .control⟩ : Turn).after = _ := takeControl_of_request? hr
      rw [absorb_eq] at hafter
      exact aside (by simp) (by simp) (by rw [hafter]; rfl) (by rw [hafter]) (by rw [hafter]) (by rw [hafter])
  | turn id =>
    cases hs : d.stage? id with
    | none =>
      have hafter : (⟨d, .turn id⟩ : Turn).after = d := pollCall_of_none hs
      exact aside (by simp) (by simp) (by simp [hafter, errands, hs, Desk.run]) (by rw [hafter]) (by rw [hafter])
        (by rw [hafter])
    | some c =>
      obtain ⟨calls, results, hafter⟩ : ∃ calls results, (⟨d, .turn id⟩ : Turn).after = _ := pollCall_of_stage? hs
      obtain ⟨⟨engine, controls, lastResult, locked, mailbox, notices, heq⟩, -, -, hmailbox⟩ := d.turn_goes c
      rw [heq] at hafter hmailbox
      refine aside (by simp) (by simp) ?_ (by rw [hafter]) (by rw [hafter]) (by rw [hafter])
      simp only at hmailbox
      rw [hafter, hmailbox, errands]
      simp only [hs, Option.some.injEq]
      by_cases hoff : c = .enabling false ∧ d.hasRoom = true
      · rw [if_pos hoff, if_pos hoff]
        rfl
      · rw [if_neg hoff, if_neg hoff]
        rfl
  | cancel id =>
    obtain ⟨locked, hafter⟩ : ∃ locked, (⟨d, .cancel id⟩ : Turn).after = _ := d.cancel_eq id
    exact aside (by simp) (by simp) (by rw [hafter]; rfl) (by rw [hafter]) (by rw [hafter]) (by rw [hafter])
  | setAddress a =>
    obtain ⟨notices, hafter⟩ : ∃ notices, (⟨d, .setAddress a⟩ : Turn).after = _ := d.happen_setAddress a
    exact aside (by simp) (by simp) (by rw [hafter]; rfl) (by rw [hafter]) (by rw [hafter]) (by rw [hafter])
  | hold low =>
    have hafter : (⟨d, .hold low⟩ : Turn).after = _ := d.hold_eq low
    exact aside (by simp) (by simp) (by rw [hafter]; rfl) (by rw [hafter]) (by rw [hafter]) (by rw [hafter])
  | _ => exact aside (by simp) (by simp) rfl rfl rfl rfl

/-- The host's task takes one message at a time, and only the host's task takes any. -/
theorem taken_cases (t : Turn) : t.taken = [] ∨ ∃ m, t.taken = [m] ∧ t.happening = .host := by
  obtain ⟨d, x⟩ := t
  cases x with
  | host =>
    simp only [taken]
    cases d.received with
    | nil => exact .inl (by simp)
    | cons m rest =>
      cases d.serving
      · exact .inl rfl
      · exact .inr ⟨m, rfl, trivial⟩
  | _ => exact .inl rfl

theorem mem_received_of_taken {t : Turn} {m : Message} (h : m ∈ t.taken) : m ∈ t.before.received := by
  obtain ⟨d, x⟩ := t
  cases x with
  | host =>
    simp only [taken] at h
    split at h
    · exact List.mem_of_mem_take h
    · exact absurd h List.not_mem_nil
  | _ => exact absurd h List.not_mem_nil

theorem errands_host {t : Turn} (h : t.happening = .host) : t.errands = t.taken.map fun m => .handle (.received m) := by
  rw [errands, h]

theorem arrivals_visits {t : Turn} (h : ∀ m ∈ t.taken, m.Legal) : t.visits.flatMap Desk.Turn.arrivals = t.taken := by
  obtain ⟨d, x⟩ := t
  cases x with
  | event =>
    simp only [visits, errands]
    cases (⟨d, .event⟩ : Turn).outcome? <;> rfl
  | turn id =>
    simp only [visits, errands]
    split <;> rfl
  | host =>
    obtain hnone | ⟨m, hm, -⟩ := (⟨d, .host⟩ : Turn).taken_cases
    · rw [visits, errands_host rfl, hnone]
      rfl
    · have hlegal : m.Legal := h m (by rw [hm]; exact List.mem_singleton_self m)
      rw [visits, errands_host rfl, hm]
      simp [Desk.turns, Desk.Turn.arrivals, hlegal]
  | _ => rfl

theorem gone_visits (t : Turn) : t.visits.flatMap Desk.Turn.gone = t.gone := by
  obtain ⟨d, x⟩ := t
  cases x with
  | event =>
    simp only [gone, lost, visits, errands]
    cases (⟨d, .event⟩ : Turn).outcome? with
    | none => rfl
    | some c => cases c <;> rfl
  | turn id =>
    simp only [gone, lost, visits, errands]
    split <;> rfl
  | host =>
    obtain hnone | ⟨m, hm, -⟩ := (⟨d, .host⟩ : Turn).taken_cases
    · rw [gone, lost, visits, errands_host rfl, hnone]
      rfl
    · rw [gone, lost, visits, errands_host rfl, hm]
      rfl
  | pop =>
    simp only [gone, fetched, lost, visits, errands, Desk.turns, Desk.Turn.gone, Desk.Turn.fetched, Desk.Turn.report,
      Desk.perform, desk, List.flatMap_cons, List.flatMap_nil, List.append_nil]
    cases d.mailbox.pop.2.1 <;> rfl
  | _ => rfl

/-- Messages are lost only where the host's task takes one that does not fit behind them, if nobody switches off. -/
theorem taken_of_lost {t : Turn} {m : Message} (h : m ∈ t.lost)
    (hon : ∀ id, t.happening = .turn id → t.before.stage? id ≠ some (.enabling false)) :
    ∃ newer, t.taken = [newer] ∧ t.happening = .host ∧ newer.Legal ∧
      ¬ t.before.desk.waiting.Fits ByteRing.defaultCapacity newer ∧ t.lost = t.before.desk.waiting := by
  obtain ⟨d, x⟩ := t
  cases x with
  | event =>
    simp only [lost, visits, errands] at h
    revert h
    cases (⟨d, .event⟩ : Turn).outcome? with
    | none => exact fun h => absurd h List.not_mem_nil
    | some c => cases c <;> exact fun h => absurd h List.not_mem_nil
  | turn id =>
    simp only [lost, visits, errands] at h
    rw [if_neg fun hoff => hon id rfl hoff.1] at h
    exact absurd h List.not_mem_nil
  | host =>
    obtain hnone | ⟨newer, htaken, -⟩ := (⟨d, .host⟩ : Turn).taken_cases
    · rw [lost, visits, errands_host rfl, hnone] at h
      exact absurd h List.not_mem_nil
    · have hlost : (⟨d, .host⟩ : Turn).lost =
          if newer.Legal ∧ ¬ d.desk.waiting.Fits ByteRing.defaultCapacity newer then d.desk.waiting else [] := by
        rw [lost, visits, errands_host rfl, htaken]
        exact List.append_nil _
      rw [hlost] at h
      split at h
      · next hfull => exact ⟨newer, htaken, rfl, hfull.1, hfull.2, by rw [hlost, if_pos hfull]⟩
      · exact absurd h List.not_mem_nil
  | pop | takeEvents | setOff off => exact absurd h List.not_mem_nil
  | _ => exact absurd h List.not_mem_nil

def Clears (t : Turn) : Prop := t.happening = .takeEvents ∨ t.errands = [.reset]

/-- Nothing but a request to switch off empties the mailbox. -/
theorem disabling_of_reset {t : Turn} (h : t.errands = [.reset]) :
    ∃ id, t.happening = .turn id ∧ t.before.stage? id = some (.enabling false) ∧ t.before.hasRoom = true := by
  obtain ⟨d, x⟩ := t
  cases x with
  | event =>
    rw [errands] at h
    revert h
    cases (⟨d, .event⟩ : Turn).outcome? with
    | none => exact fun h => nomatch h
    | some c => exact fun h => nomatch h
  | turn id =>
    simp only [errands] at h
    split at h
    · next hoff => exact ⟨id, rfl, hoff⟩
    · cases h
  | host =>
    obtain hnone | ⟨m, hm, -⟩ := (⟨d, .host⟩ : Turn).taken_cases
    · rw [errands_host rfl, hnone] at h
      cases h
    · rw [errands_host rfl, hm] at h
      cases h
  | _ => cases h

theorem events_of_clears {t : Turn} (h : t.Clears) : t.after.mailbox.events = 0 := by
  have hdesk := congrArg (·.mailbox.events) t.handled.desk
  refine hdesk.trans ?_
  obtain h | h := h
  · rw [errands, h]
    rfl
  · rw [h]
    rfl

theorem events_of_not_clears {t : Turn} (h : ¬ t.Clears) :
    t.after.mailbox.events = t.before.mailbox.events ||| t.bits := by
  have hdesk := congrArg (·.mailbox.events) t.handled.desk
  refine hdesk.trans ?_
  obtain ⟨d, x⟩ := t
  cases x with
  | event =>
    rw [errands, bits, result?]
    cases (⟨d, .event⟩ : Turn).outcome? with
    | none => exact UInt32.or_zero.symm
    | some c => exact Desk.Turn.events_of_not_clears (t := ⟨d.desk, .record c⟩) (by rintro (h | h) <;> cases h)
  | turn id =>
    have hnone : (⟨d, .turn id⟩ : Turn).errands = [] := if_neg fun hoff => h (.inr (if_pos hoff))
    rw [hnone]
    exact UInt32.or_zero.symm
  | host =>
    obtain hnone | ⟨m, hm, -⟩ := (⟨d, .host⟩ : Turn).taken_cases
    · rw [errands_host rfl, hnone]
      exact UInt32.or_zero.symm
    · rw [errands_host rfl, hm]
      exact Desk.Turn.events_of_not_clears (t := ⟨d.desk, .handle (.received m)⟩) (by rintro (h | h) <;> cases h)
  | takeEvents => exact absurd (.inl rfl) h
  | pop => exact Desk.Turn.events_of_not_clears (t := ⟨d.desk, .pop⟩) (by rintro (h | h) <;> cases h)
  | setOff off => exact UInt32.or_zero.symm
  | _ => exact UInt32.or_zero.symm

theorem passesOn_iff {t : Turn} : t.passesOn = true ↔
    t.happening = .host ∧ t.before.serving = true ∧ t.before.received = [] ∧ t.before.resultPending = true := by
  simp [passesOn, and_assoc]

theorem not_passesOn_of_result {t : Turn} (h : t.result?.isSome = true) : t.passesOn = false := by
  refine Bool.eq_false_iff.2 fun hp => ?_
  have houtcome : t.outcome? = none := by rw [outcome?, (passesOn_iff.1 hp).1]
  rw [result?, houtcome] at h
  cases h

theorem told_of_passesOn {t : Turn} (h : t.passesOn = true) : t.told = [(.eventsPending, t.after.mailbox)] := by
  obtain ⟨hhost, -, hempty, -⟩ := passesOn_iff.1 h
  have htaken : t.taken = [] := by
    rw [taken, hhost]
    simp [hempty]
  rw [told, if_pos h, visits, errands_host hhost, htaken]
  rfl

end Turn

theorem isEvent_of_event? {d : Device} {x : Nat × Engine.Call} (h : d.event? = some x) : x.2.isEvent = true := by
  unfold event? at h
  split at h
  · cases h
    rfl
  · split at h
    · split at h
      · cases h
        rfl
      · cases h
    · cases h

/-- What holds of a device at any time: the messages on their way are ones that the bus can carry, and those
in its mailbox are `l`. -/
structure Orderly (d : Device) (l : Backlog) : Prop where
  engine : d.engine.Steady
  received : ∀ m ∈ d.received, m.Legal
  length : d.received.length ≤ receivedCapacity
  mailbox : d.mailbox.queue.Holds l

variable {d : Device} {l : Backlog}

theorem orderly_opened (c : Config) (off : Bool) : (opened c off).Orderly [] where
  engine := Engine.steady_new
  received := fun _ hm => absurd hm List.not_mem_nil
  length := Nat.zero_le _
  mailbox := ByteRing.holds_empty (by decide)

theorem Turn.legal_of_reported {t : Turn} (h : t.before.engine.Steady) {m : Message} (hm : m ∈ t.reported) : m.Legal := by
  have ho : t.outcome? = some (.received m) := by
    unfold reported at hm
    split at hm
    · next heq => rw [heq, List.mem_singleton.1 hm]
    · exact absurd hm List.not_mem_nil
  unfold outcome? at ho
  split at ho
  · obtain ⟨x, hx, hout⟩ := Option.bind_eq_some_iff.1 ho
    exact h.legal_received (isEvent_of_event? hx) hout
  · cases ho

theorem Turn.kept_sublist (t : Turn) : t.kept.Sublist t.reported := by
  unfold kept
  split
  · exact List.Sublist.refl _
  · exact List.nil_sublist _

/-- What is on its way or in the mailbox, and what the engine reports, is in this order what leaves and what
is in the mailbox or on its way then. -/
theorem Orderly.turn {t : Turn} (h : t.before.Orderly l) : ∃ l', t.after.Orderly l' ∧
    l ++ t.before.received ++ t.kept = t.gone ++ (l' ++ t.after.received) := by
  have hreceived := t.handled.received
  have hlegal : ∀ m ∈ t.taken ++ t.after.received, m.Legal := by
    rw [← hreceived]
    intro m hm
    obtain hm | hm := List.mem_append.1 hm
    · exact h.received m hm
    · exact Turn.legal_of_reported h.engine (t.kept_sublist.subset hm)
  obtain ⟨l', hl', haccount⟩ := Desk.run_account (d := t.before.desk) h.mailbox (by decide) t.errands
  rw [← t.handled.desk] at hl'
  replace haccount : l ++ t.taken = t.gone ++ l' := by
    rw [← Turn.arrivals_visits fun m hm => hlegal m (List.mem_append_left _ hm), ← t.gone_visits]
    exact haccount
  refine ⟨l', ⟨steady_happen h.engine t.happening, fun m hm => hlegal m (List.mem_append_right _ hm), ?_, hl'⟩, ?_⟩
  · have hlength := congrArg List.length hreceived
    have hkept : t.kept.length ≤ 1 ∧ (receivedCapacity ≤ t.before.received.length → t.kept.length = 0) := by
      unfold Turn.kept Turn.reported
      split
      · next hroom => exact ⟨by split <;> simp, fun hfull => absurd hroom (Nat.not_lt.2 hfull)⟩
      · exact ⟨Nat.zero_le _, fun _ => rfl⟩
    have hbefore := h.length
    simp only [List.length_append] at hlength
    omega
  · calc l ++ t.before.received ++ t.kept
        = l ++ t.taken ++ t.after.received := by rw [List.append_assoc, hreceived, List.append_assoc]
      _ = t.gone ++ (l' ++ t.after.received) := by rw [haccount, List.append_assoc]

theorem Orderly.through (h : d.Orderly l) (hs : List Happening) : ∃ l', (d.through hs).Orderly l' ∧
    l ++ d.received ++ (d.turns hs).flatMap Turn.kept =
      (d.turns hs).flatMap Turn.gone ++ (l' ++ (d.through hs).received) := by
  -- By induction on the happenings, with the account of each turn.
  induction hs generalizing d l with
  | nil => exact ⟨l, h, by simp [turns, Device.through]⟩
  | cons x rest ih =>
    obtain ⟨l1, h1, hturn⟩ := Orderly.turn (t := ⟨d, x⟩) h
    obtain ⟨l2, h2, hrest⟩ := ih h1
    refine ⟨l2, h2, ?_⟩
    calc l ++ d.received ++ (d.turns (x :: rest)).flatMap Turn.kept
        = (l ++ d.received ++ Turn.kept ⟨d, x⟩) ++ ((d.happen x).turns rest).flatMap Turn.kept := by
          rw [turns, List.flatMap_cons, List.append_assoc (l ++ d.received)]
      _ = Turn.gone ⟨d, x⟩ ++ (l1 ++ (d.happen x).received ++ ((d.happen x).turns rest).flatMap Turn.kept) := by
          rw [hturn, List.append_assoc]
          rfl
      _ = Turn.gone ⟨d, x⟩ ++ (((d.happen x).turns rest).flatMap Turn.gone ++
            (l2 ++ ((d.happen x).through rest).received)) := congrArg _ hrest
      _ = (d.turns (x :: rest)).flatMap Turn.gone ++ (l2 ++ (d.through (x :: rest)).received) := by
          rw [turns, List.flatMap_cons, List.append_assoc]
          rfl

theorem Orderly.fetched_sublist (h : d.Orderly l) (hs : List Happening) : ((d.turns hs).flatMap Turn.fetched).Sublist
    (l ++ d.received ++ (d.turns hs).flatMap Turn.reported) := by
  obtain ⟨l', -, haccount⟩ := h.through hs
  have hgone : ((d.turns hs).flatMap Turn.fetched).Sublist ((d.turns hs).flatMap Turn.gone) :=
    List.Sublist.flatMap_right _ fun t _ => List.sublist_append_left _ _
  have hkept : ((d.turns hs).flatMap Turn.kept).Sublist ((d.turns hs).flatMap Turn.reported) :=
    List.Sublist.flatMap_right _ fun t _ => t.kept_sublist
  refine (hgone.trans (List.sublist_append_left _ (l' ++ (d.through hs).received))).trans ?_
  rw [← haccount]
  exact hkept.append_left _

theorem Orderly.before (h : d.Orderly l) {hs : List Happening} {t : Turn} (ht : t ∈ d.turns hs) :
    ∃ l', t.before.Orderly l' := by
  obtain ⟨past, rest, -, hbefore⟩ := mem_turns ht
  obtain ⟨l', hl', -⟩ := h.through past
  exact ⟨l', hbefore ▸ hl'⟩

theorem received_through (d : Device) (hs : List Happening) : d.received ++ (d.turns hs).flatMap Turn.kept =
    (d.turns hs).flatMap Turn.taken ++ (d.through hs).received := by
  induction hs generalizing d with
  | nil => simp [turns, through]
  | cons x rest ih =>
    have hturn := (Turn.handled ⟨d, x⟩).received
    rw [turns, List.flatMap_cons, List.flatMap_cons, List.append_assoc, through, ← ih, ← List.append_assoc,
      ← List.append_assoc]
    exact congrArg (· ++ _) hturn

theorem taken_sublist (d : Device) (hs : List Happening) : ((d.turns hs).flatMap Turn.taken).Sublist
    (d.received ++ (d.turns hs).flatMap Turn.reported) := by
  have hkept : ((d.turns hs).flatMap Turn.kept).Sublist ((d.turns hs).flatMap Turn.reported) :=
    List.Sublist.flatMap_right _ fun t _ => t.kept_sublist
  refine (List.sublist_append_left _ (d.through hs).received).trans ?_
  rw [← d.received_through hs]
  exact hkept.append_left _

theorem calls_through (d : Device) (hs : List Happening) : (d.through hs).trace.calls.toList =
    d.trace.calls.toList ++ ((d.turns hs).flatMap Turn.told).map (·.1) := by
  induction hs generalizing d with
  | nil => simp [turns, through]
  | cons x rest ih =>
    have hturn : (d.happen x).trace.calls = _ := (Turn.handled ⟨d, x⟩).calls
    rw [turns, List.flatMap_cons, List.map_append, through, ih, hturn]
    simp

/-- A send result waits until the host's task passes on that there is one. -/
theorem passed_on (h : d.resultPending = true) {hs : List Happening} (hend : (d.through hs).resultPending = false) :
    ∃ u ∈ d.turns hs, u.passesOn = true := by
  induction hs generalizing d with
  | nil =>
    rw [through, h] at hend
    cases hend
  | cons x rest ih =>
    by_cases hword : (⟨d, x⟩ : Turn).passesOn = true
    · exact ⟨_, List.mem_cons_self, hword⟩
    · have hnext : (d.happen x).resultPending = true := by
        have hp := (Turn.handled ⟨d, x⟩).pending
        simp only [Turn.after] at hp
        simp [hp, h, hword]
      obtain ⟨u, hu, hpasses⟩ := ih hnext hend
      exact ⟨u, List.mem_cons_of_mem _ hu, hpasses⟩

theorem Turn.pending_of_result {t : Turn} (h : t.result?.isSome = true) : t.after.resultPending = true := by
  rw [t.handled.pending, h, Bool.or_true]

def StaysOn (d : Device) : Prop := ∀ x ∈ d.calls, x.2 ≠ .enabling false

theorem StaysOn.happen (h : d.StaysOn) {x : Happening} (hx : x ≠ .enable false) : (d.happen x).StaysOn := by
  cases x with
  | event =>
    cases he : d.event? with
    | none => rwa [Device.happen, takeEvent_of_none he]
    | some y =>
      obtain ⟨received, resultPending, lastResult, mailbox, notices, heq⟩ := d.onEvent_eq y.1 (d.engine.answer y.2).2
      rw [Device.happen, takeEvent_of_event? he, heq]
      exact h
  | control =>
    cases hr : d.request? with
    | none => rwa [Device.happen, takeControl_of_none hr]
    | some c =>
      obtain ⟨result, heq⟩ := takeControl_of_request? hr
      rw [Device.happen, heq, absorb_eq]
      exact h
  | turn id =>
    cases hs : d.stage? id with
    | none => rwa [Device.happen, pollCall_of_none hs]
    | some c =>
      obtain ⟨c', hnext, heq⟩ | ⟨r, -, heq⟩ := pollCall_cases hs
      · rw [Device.happen, heq]
        intro y hy
        obtain ⟨z, hz, rfl⟩ := List.mem_map.1 hy
        split
        · rintro rfl
          cases turn_leads hnext
          exact h _ (mem_of_stage? hs) rfl
        · exact h z hz
      · rw [Device.happen, heq]
        exact fun y hy => h y (List.mem_filter.1 hy).1
  | host =>
    obtain ⟨received, resultPending, mailbox, calls, notices, heq⟩ := d.serveNext_eq
    rw [Device.happen, heq]
    exact h
  | enable on =>
    intro y hy
    obtain hy | hy := List.mem_append.1 hy
    · exact h y hy
    · obtain rfl := List.mem_singleton.1 hy
      rintro ⟨⟩
      exact hx rfl
  | send m | sendWait m =>
    intro y hy
    obtain hy | hy := List.mem_append.1 hy
    · exact h y hy
    · obtain rfl := List.mem_singleton.1 hy
      simp
  | cancel id =>
    obtain ⟨locked, heq⟩ := d.cancel_eq id
    rw [Device.happen, heq]
    exact fun y hy => h y (List.mem_filter.1 hy).1
  | setAddress a =>
    obtain ⟨notices, heq⟩ := d.happen_setAddress a
    rw [heq]
    exact h
  | hold low =>
    rw [Device.happen, hold_eq]
    exact h
  | _ => exact h

theorem StaysOn.through (h : d.StaysOn) {hs : List Happening} (hon : .enable false ∉ hs) : (d.through hs).StaysOn := by
  induction hs generalizing d with
  | nil => exact h
  | cons x rest ih =>
    exact ih (h.happen fun hx => hon (hx ▸ List.mem_cons_self)) fun hx => hon (List.mem_cons_of_mem _ hx)

/-- The way of messages and send results from the engine to the host, over one history. -/
structure Relayed (d : Device) (hs : List Happening) : Prop where
  /-- A message that the engine reports goes on, unless four wait already for the host's task. -/
  reported : ∀ t ∈ d.turns hs, t.kept = t.reported ∨ t.before.received.length = receivedCapacity
  /-- Those that go on are, in this order, those that have left the mailbox, those that wait in it, and those
  that wait for the host's task. -/
  account : (d.turns hs).flatMap Turn.kept =
    (d.turns hs).flatMap Turn.gone ++ ((d.through hs).desk.waiting ++ (d.through hs).received)
  /-- A message leaves the mailbox without being fetched only where the host's task takes one that does not
  fit behind those that wait. -/
  lost : ∀ t ∈ d.turns hs, t.lost ≠ [] → ∃ newer, t.taken = [newer] ∧
    ¬ t.before.desk.waiting.Fits ByteRing.defaultCapacity newer
  /-- The host gets messages in the order in which the engine reports them, and none twice. -/
  fetched : ((d.turns hs).flatMap Turn.fetched).Sublist ((d.turns hs).flatMap Turn.reported)
  /-- A message that the host's task takes is the newest in the mailbox, and then it is announced. -/
  announced : ∀ t ∈ d.turns hs, ∀ m ∈ t.taken, (∃ older, t.after.desk.waiting = older ++ [m]) ∧
    ∃ presses : List HostCall, (∀ p ∈ presses, p ≠ .messageAvailable) ∧
      t.told = presses.map (·, t.before.mailbox) ++ [(.messageAvailable, t.after.mailbox)]
  /-- Where the host's task finds nothing to do, no message waits for it, and after each send result the host
  was told that there is one. -/
  passedOn : ∀ past rest, hs = past ++ rest → (d.through past).serving = true →
    (d.through past).hostReady = false → (d.through past).received = [] ∧
      ∀ us t vs, d.turns past = us ++ t :: vs → t.result?.isSome = true →
        ∃ v ∈ vs, v.told = [(.eventsPending, v.after.mailbox)]
  /-- The host gets the event bits of the send results since it asked last. -/
  events : ∀ past rest, hs = past ++ .takeEvents :: rest → ∃ us vs, d.turns past = us ++ vs ∧
    (∀ u ∈ us.getLast?, u.happening = .takeEvents) ∧ (∀ v ∈ vs, v.happening ≠ .takeEvents) ∧
    (d.through past).mailbox.takeEvents.2 = (vs.map Turn.bits).foldl (· ||| ·) 0
  calls : (d.through hs).trace.calls.toList = ((d.turns hs).flatMap Turn.told).map (·.1)

/-- While a send result waits, it came since the last word on results, or it waited from the beginning. -/
theorem pending_since (hs : List Happening) (h : (d.through hs).resultPending = true) : ∃ us vs,
    d.turns hs = us ++ vs ∧ (∀ v ∈ vs, v.passesOn = false) ∧
      ((∃ v ∈ vs, v.result?.isSome = true) ∨ us = [] ∧ d.resultPending = true) := by
  induction hs using List.reverseRecOn with
  | nil => exact ⟨[], [], rfl, by simp, .inr ⟨rfl, h⟩⟩
  | append_singleton hs x ih =>
    have hstep : d.turns (hs ++ [x]) = d.turns hs ++ [⟨d.through hs, x⟩] := turns_append _ _ _
    have hafter : (Turn.after ⟨d.through hs, x⟩).resultPending = true := by
      rw [through_append] at h
      exact h
    rw [(Turn.handled _).pending, Bool.or_eq_true, Bool.and_eq_true, Bool.not_eq_true'] at hafter
    obtain ⟨hwaits, hsilent⟩ | hresult := hafter
    · obtain ⟨us, vs, hturns, hvs, hcame⟩ := ih hwaits
      refine ⟨us, vs ++ [⟨d.through hs, x⟩], by rw [hstep, hturns, List.append_assoc], fun v hv => ?_, ?_⟩
      · obtain hv | hv := List.mem_append.1 hv
        · exact hvs v hv
        · exact List.mem_singleton.1 hv ▸ hsilent
      · exact hcame.imp_left fun ⟨v, hv, hresult⟩ => ⟨v, List.mem_append_left _ hv, hresult⟩
    · refine ⟨d.turns hs, [⟨d.through hs, x⟩], hstep, fun v hv => ?_, .inl ⟨_, List.mem_singleton_self _, hresult⟩⟩
      obtain rfl := List.mem_singleton.1 hv
      exact Turn.not_passesOn_of_result hresult

/-- The event bits that are set are those of the send results since the last turn that left none. -/
theorem events_through (h : d.mailbox.events = 0) (hs : List Happening) : ∃ us vs, d.turns hs = us ++ vs ∧
    (∀ u ∈ us.getLast?, u.Clears) ∧ (∀ v ∈ vs, ¬ v.Clears) ∧
    (d.through hs).mailbox.events = (vs.map Turn.bits).foldl (· ||| ·) 0 := by
  induction hs using List.reverseRecOn with
  | nil => exact ⟨[], [], rfl, by simp, by simp, h⟩
  | append_singleton hs x ih =>
    obtain ⟨us, vs, hturns, hus, hvs, hevents⟩ := ih
    have hstep : d.turns (hs ++ [x]) = us ++ vs ++ [⟨d.through hs, x⟩] := by
      rw [turns_append, hturns]
      rfl
    have hafter : d.through (hs ++ [x]) = (⟨d.through hs, x⟩ : Turn).after := through_append _ _ _
    by_cases hc : (⟨d.through hs, x⟩ : Turn).Clears
    · refine ⟨us ++ vs ++ [⟨d.through hs, x⟩], [], by simp [hstep], fun u hu => ?_, by simp, ?_⟩
      · obtain rfl : _ = u := by simpa using hu
        exact hc
      · rw [hafter, Turn.events_of_clears hc]
        rfl
    · refine ⟨us, vs ++ [⟨d.through hs, x⟩], by simp [hstep], hus, fun v hv => ?_, ?_⟩
      · obtain hv | hv := List.mem_append.1 hv
        · exact hvs v hv
        · exact List.mem_singleton.1 hv ▸ hc
      · rw [hafter, Turn.events_of_not_clears hc, hevents]
        simp

theorem Turn.told_of_taken {t : Turn} {l : Backlog} (h : t.before.Orderly l) {m : Message} (hm : m ∈ t.taken) :
    (∃ older, t.after.desk.waiting = older ++ [m]) ∧
      ∃ presses : List HostCall, (∀ p ∈ presses, p ≠ .messageAvailable) ∧
        t.told = presses.map (·, t.before.mailbox) ++ [(.messageAvailable, t.after.mailbox)] := by
  obtain hnone | ⟨m', htaken, hhost⟩ := t.taken_cases
  · rw [hnone] at hm
    exact absurd hm List.not_mem_nil
  obtain rfl : m = m' := List.mem_singleton.1 (htaken ▸ hm)
  have hlegal : m.Legal := h.received m (mem_received_of_taken hm)
  have herrands : t.errands = [.handle (.received m)] := by rw [errands_host hhost, htaken]; rfl
  have hafter : t.after.desk = (⟨t.before.desk, .handle (.received m)⟩ : Desk.Turn _).after := by
    rw [t.handled.desk, herrands]
    rfl
  have hword : t.passesOn = false := by
    refine Bool.eq_false_iff.2 fun hp => ?_
    have hwaits := mem_received_of_taken hm
    rw [(passesOn_iff.1 hp).2.2.1] at hwaits
    exact absurd hwaits List.not_mem_nil
  obtain ⟨hholds, htold⟩ :=
    Desk.Turn.received_legal (t := ⟨t.before.desk, .handle (.received m)⟩) h.mailbox (by decide) rfl hlegal
  refine ⟨⟨_, by rw [hafter]; exact hholds.waiting⟩, (t.before.config.inStandby t.before.off m).2.1, ?_, ?_⟩
  · intro p hp
    rw [Config.press_of_mem hp]
    simp
  · rw [told, hword, visits, herrands]
    have hmailbox : t.after.mailbox = (⟨t.before.desk, .handle (.received m)⟩ : Desk.Turn _).after.mailbox :=
      congrArg (·.mailbox) hafter
    rw [hmailbox, if_neg Bool.false_ne_true, List.append_nil]
    exact (List.append_nil _).trans htold

/-- Over every history of a new device in which nobody switches off. -/
theorem relay_contract (c : Config) (off : Bool) (hs : List Happening) (hon : .enable false ∉ hs) :
    (opened c off).Relayed hs := by
  have hnew := orderly_opened c off
  have hstays : ∀ past rest, hs = past ++ rest → ((opened c off).through past).StaysOn := fun past rest hsplit =>
    StaysOn.through (fun x hx => absurd hx List.not_mem_nil) fun hx => hon (hsplit ▸ List.mem_append_left _ hx)
  have herrands : ∀ t ∈ (opened c off).turns hs, ∀ id, t.happening = .turn id →
      t.before.stage? id ≠ some (.enabling false) := by
    intro t ht id _ hstage
    obtain ⟨past, rest, hsplit, hbefore⟩ := mem_turns ht
    exact hstays past _ hsplit _ (hbefore ▸ mem_of_stage? hstage) rfl
  obtain ⟨l, hl, haccount⟩ := hnew.through hs
  refine {
    reported := fun t ht => ?_
    account := ?_
    lost := fun t ht hlost => ?_
    fetched := ?_
    announced := fun t ht m hm => ?_
    passedOn := fun past rest hsplit hserving hidle => ?_
    events := fun past rest hsplit => ?_
    calls := (calls_through _ hs).trans (List.nil_append _) }
  · obtain ⟨l', hl'⟩ := hnew.before ht
    by_cases hroom : t.before.received.length < receivedCapacity
    · exact .inl (if_pos hroom)
    · exact .inr (Nat.le_antisymm hl'.length (Nat.not_lt.1 hroom))
  · have hwaiting : ((opened c off).through hs).desk.waiting = l := hl.mailbox.waiting
    rw [hwaiting]
    exact haccount
  · obtain ⟨m, hm⟩ := List.exists_mem_of_ne_nil _ hlost
    obtain ⟨newer, htaken, -, -, hfits, -⟩ := Turn.taken_of_lost hm (herrands t ht)
    exact ⟨newer, htaken, hfits⟩
  · exact hnew.fetched_sublist hs
  · obtain ⟨l', hl'⟩ := hnew.before ht
    exact Turn.told_of_taken hl' hm
  · have hnothing : ((opened c off).through past).received = [] ∧
        ((opened c off).through past).resultPending = false := by
      simpa [hostReady, hserving] using hidle
    refine ⟨hnothing.1, fun us t vs hturns hresult => ?_⟩
    obtain ⟨before, x, after, rfl, rfl, -, rfl⟩ := turns_split hturns
    have hend : (Turn.after ⟨(opened c off).through before, x⟩).through after =
        (opened c off).through (before ++ x :: after) := (through_append _ before (x :: after)).symm
    obtain ⟨v, hv, hpasses⟩ := passed_on (Turn.pending_of_result hresult) (hend ▸ hnothing.2)
    exact ⟨v, hv, Turn.told_of_passesOn hpasses⟩
  · obtain ⟨us, vs, hturns, hus, hvs, hevents⟩ := events_through (d := opened c off) rfl past
    refine ⟨us, vs, hturns, fun u hu => ?_, fun v hv htake => hvs v hv (.inl htake), hevents⟩
    obtain htake | hreset := hus u hu
    · exact htake
    · obtain ⟨id, hturn, hstage, -⟩ := Turn.disabling_of_reset hreset
      have hmem : u ∈ (opened c off).turns hs := by
        rw [hsplit, turns_append, hturns]
        exact List.mem_append_left _ (List.mem_append_left _ (List.mem_of_getLast? hu))
      exact absurd hstage (herrands u hmem id hturn)

/-- A device at address 5 takes in a frame that is addressed to it, and sends one that is acknowledged. -/
theorem relay_contract_both_ways :
    let transmit := [.send [0x50], .turn 1, .control, .pass 100000] ++ List.replicate 22 .event ++ [.hold true, .event, .event]
    let hs := [.setAddress ⟨5⟩, .enable true, .turn 0, .control] ++ poll ++ [.serve true, .host, .pop] ++ transmit ++
      [.host, .takeEvents]
    .enable false ∉ hs ∧ (opened {} false).Relayed hs ∧
      ((opened {} false).turns hs).flatMap Turn.reported = [[0x05]] ∧
      ((opened {} false).turns hs).flatMap Turn.fetched = [[0x05]] ∧
      ((opened {} false).turns hs).filterMap Turn.result? = [.sendOk] ∧
      ((opened {} false).through hs).hostReady = false ∧
      ((opened {} false).through hs).trace.calls = #[.messageAvailable, .eventsPending] := by
  intro transmit hs
  have hon : .enable false ∉ hs := by decide
  exact ⟨hon, relay_contract {} false hs hon, by decide +kernel⟩

end Device
end HdmiCec
