import HdmiCec.Bench.Desk
import HdmiCec.Proofs.Inbox.Backlog

/-! What a host can rely on at a desk, over any history (`service_contract`): what it is told and when,
which messages it can fetch and in which order, and which event bits. The carrying fact is one equation
a turn: what waited and what arrives is, in this order, what leaves and what waits then
(`Turn.balance`). -/
namespace HdmiCec

namespace ByteRing

variable {n : Nat} {q : ByteRing n} {l : Backlog}

def fetched (q : ByteRing n) : Nat → Backlog
  | 0 => []
  | k + 1 => match q.pop with
    | (q', some m, _) => m :: q'.fetched k
    | (_, none, _) => []

/-- The messages that wait, oldest first: what a host fetches that pops until nothing comes. Every
message takes a place, so `n` pops are enough. -/
def waiting (q : ByteRing n) : Backlog := q.fetched n

theorem Holds.fetched (h : q.Holds l) {k : Nat} (hk : l.length ≤ k) : q.fetched k = l := by
  induction k generalizing q l with
  | zero =>
    rw [List.length_eq_zero_iff.1 (Nat.le_zero.1 hk)]
    rfl
  | succ k ih =>
    cases l with
    | nil => rw [ByteRing.fetched, h.pop_nil]
    | cons m l =>
      obtain ⟨q', hq', hl⟩ := h.pop
      rw [ByteRing.fetched, hq']
      exact congrArg _ (ih hl (Nat.le_of_succ_le_succ hk))

theorem Holds.waiting (h : q.Holds l) : q.waiting = l :=
  h.fetched (Nat.le_trans (Backlog.length_le_used l) (Nat.le_of_lt h.room))

theorem Holds.pushNewest (h : q.Holds l) (hn : minCapacity ≤ n) {m : Message} (hm : m.Legal) :
    ∃ q' dropped, q.pushNewest m = (q', .ok (), dropped) ∧
      q'.Holds ((if l.Fits n m then l else []) ++ [m]) := by
  by_cases hf : l.Fits n m
  · obtain ⟨q', hq', hl⟩ := h.pushNewest_fits hm hf
    exact ⟨q', _, hq', by rwa [if_pos hf]⟩
  · obtain ⟨q', hq', hl⟩ := h.pushNewest_full hn hm hf
    exact ⟨q', _, hq', by rwa [if_neg hf]⟩

end ByteRing

/-- A system in standby is to turn on at a message: among the entries of the policy for its command the
first names the power button. -/
def Config.Wakes (c : Config) (off : Bool) (m : Message) : Prop :=
  off = true ∧ ∃ command earlier e later, m[1]? = some command ∧ c.policy = earlier ++ e :: later ∧
    (∀ x ∈ earlier, x.1.code ≠ command) ∧ e.1.code = command ∧ e.2 = .powerButton

theorem StandbyPolicy.action_eq_powerButton_iff {p : StandbyPolicy} {command : UInt8} :
    p.action command = .powerButton ↔ ∃ earlier e later, p = earlier ++ e :: later ∧
      (∀ x ∈ earlier, x.1.code ≠ command) ∧ e.1.code = command ∧ e.2 = .powerButton := by
  have hfirst (e : Opcode × StandbyAction) : p.find? (fun e => e.1.code == command) = some e ↔ _ :=
    List.find?_eq_some_iff_append
  simp only [beq_iff_eq, Bool.not_eq_true', beq_eq_false_iff_ne] at hfirst
  rw [StandbyPolicy.action]
  constructor
  · intro h
    cases he : p.find? fun e => e.1.code == command with
    | none => simp [he] at h
    | some e =>
      obtain ⟨hcode, earlier, later, hp, hearlier⟩ := (hfirst e).1 he
      exact ⟨earlier, e, later, hp, hearlier, hcode, by simpa [he] using h⟩
  · rintro ⟨earlier, e, later, hp, hearlier, hcode, haction⟩
    rw [(hfirst e).2 ⟨hcode, earlier, later, hp, hearlier⟩]
    exact haction

theorem Config.wakes_iff {c : Config} {off : Bool} {m : Message} :
    c.Wakes off m ↔ off = true ∧ c.policy.response m = .powerButton := by
  refine and_congr_right fun _ => ?_
  rw [StandbyPolicy.response]
  cases m[1]? with
  | none => simp
  | some command =>
    constructor
    · rintro ⟨command', earlier, e, later, hm, hentry⟩
      cases hm
      exact StandbyPolicy.action_eq_powerButton_iff.2 ⟨earlier, e, later, hentry⟩
    · intro h
      obtain ⟨earlier, e, later, hentry⟩ := StandbyPolicy.action_eq_powerButton_iff.1 h
      exact ⟨command, earlier, e, later, rfl, hentry⟩

theorem Config.presses_of_wakes {c : Config} {off : Bool} {m : Message} (h : c.Wakes off m) :
    (c.inStandby off m).2.1 = [.press c.pressMs] := by
  obtain ⟨hoff, hresponse⟩ := Config.wakes_iff.1 h
  have hne : m ≠ [] := by
    rintro rfl
    simp [StandbyPolicy.response] at hresponse
  rw [Config.inStandby, hoff, hresponse]
  simp [hne]

theorem Config.presses_of_not_wakes {c : Config} {off : Bool} {m : Message} (h : ¬ c.Wakes off m) :
    (c.inStandby off m).2.1 = [] := by
  rw [Config.wakes_iff, not_and] at h
  rw [Config.inStandby]
  split
  · rfl
  · split
    · rfl
    · next hoff _ =>
      split
      · next hp => exact absurd hp (h (by simpa using hoff))
      · rfl

/-- Standby has the power button pressed and nothing else. -/
theorem Config.press_of_mem {c : Config} {off : Bool} {m : Message} {call : HostCall}
    (h : call ∈ (c.inStandby off m).2.1) : call = .press c.pressMs := by
  by_cases hw : c.Wakes off m
  · rw [Config.presses_of_wakes hw] at h
    exact List.mem_singleton.1 h
  · rw [Config.presses_of_not_wakes hw] at h
    exact absurd h List.not_mem_nil

namespace Mailbox

variable {n : Nat} {b : Mailbox n} {c : Config} {off : Bool} {m : Message}

/-- The press of the power button, if any, comes first; the queued message is announced last. -/
theorem deliver_of_pushed {q' : ByteRing n} {dropped : List Notice}
    (h : b.queue.pushNewest m = (q', .ok (), dropped)) :
    (b.deliver c off (.received m)).mailbox = { b with queue := q' } ∧
      (b.deliver c off (.received m)).told =
        (c.inStandby off m).2.1.map (·, b) ++ [(.messageAvailable, { b with queue := q' })] := by
  simp [deliver, deliverMessage, h]

theorem deliver_of_refused {e : QueueError} {dropped : List Notice}
    (h : b.queue.pushNewest m = (b.queue, .error e, dropped)) :
    (b.deliver c off (.received m)).mailbox = b ∧
      (b.deliver c off (.received m)).told = (c.inStandby off m).2.1.map (·, b) := by
  simp [deliver, deliverMessage, h]

end Mailbox

namespace Desk

variable {n : Nat}

def opened (h : ByteRing.minCapacity ≤ n) (c : Config) (off : Bool) : Desk n :=
  { mailbox := .empty n h, config := c, off := off }

def waiting (d : Desk n) : Backlog := d.mailbox.queue.waiting

structure Turn (n : Nat) where
  before : Desk n
  step : Step

def run (d : Desk n) : List Step → Desk n
  | [] => d
  | s :: rest => (d.perform s).1.run rest

def turns (d : Desk n) : List Step → List (Turn n)
  | [] => []
  | s :: rest => ⟨d, s⟩ :: (d.perform s).1.turns rest

theorem run_append (d : Desk n) (u v : List Step) : d.run (u ++ v) = (d.run u).run v := by
  induction u generalizing d with
  | nil => rfl
  | cons s u ih => exact ih _

namespace Turn

def after (t : Turn n) : Desk n := (t.before.perform t.step).1

def report (t : Turn n) : Report := (t.before.perform t.step).2

def told (t : Turn n) : List (HostCall × Mailbox n) :=
  match t.step with
  | .handle c => (t.before.mailbox.deliver t.before.config t.before.off c).told
  | _ => []

def arrivals (t : Turn n) : List Message :=
  match t.step with
  | .handle (.received m) => if m.Legal then [m] else []
  | .push m => if t.report.reply = .ok then [m] else []
  | _ => []

def fetched (t : Turn n) : List Message :=
  match t.report.reply with
  | .message (some m) => [m]
  | _ => []

/-- The messages that are lost: all that wait, at a reset and at the arrival of one that does not fit
behind them. -/
def lost (t : Turn n) : List Message :=
  match t.step with
  | .reset => t.before.waiting
  | .handle (.received m) => if m.Legal ∧ ¬ t.before.waiting.Fits n m then t.before.waiting else []
  | _ => []

def gone (t : Turn n) : List Message := t.fetched ++ t.lost

end Turn

def Step.bits : Step → EventBits
  | .handle c | .record c => (EventBits.ofCompletion? c).getD 0
  | .raiseEvents bits => bits
  | _ => 0

def Step.Clears (s : Step) : Prop := s = .takeEvents ∨ s = .reset

/-- The contract of a desk with its host, over one history. -/
structure Contract (d : Desk n) (steps : List Step) : Prop where
  /-- A received message is the newest in the queue, and then it is announced, once. Before that the
  power button is pressed, once, if the message is to turn the system on. -/
  received : ∀ t ∈ d.turns steps, ∀ m, t.step = .handle (.received m) → m.Legal →
    (∃ older, t.after.waiting = older ++ [m]) ∧
    ∃ presses, t.told = presses.map (·, t.before.mailbox) ++ [(.messageAvailable, t.after.mailbox)] ∧
      (d.config.Wakes t.before.off m → presses = [.press d.config.pressMs]) ∧
      (¬ d.config.Wakes t.before.off m → presses = [])
  empty : ∀ t ∈ d.turns steps, t.step = .handle (.received []) → t.after = t.before ∧ t.told = []
  /-- A send result sets its event bit, and then it is announced, once. -/
  result : ∀ t ∈ d.turns steps, ∀ c, t.step = .handle c → (∀ m, c ≠ .received m) →
    t.told = [(.eventsPending, t.after.mailbox)]
  /-- Nothing else is announced, and nothing else presses the button. -/
  silent : ∀ t ∈ d.turns steps, (∀ c, t.step ≠ .handle c) → t.told = []
  calls : ∀ t ∈ d.turns steps, t.report.calls = t.told.map (·.1)
  /-- Messages leave in the order of their arrival, and those that have not left wait. -/
  account : (d.turns steps).flatMap Turn.arrivals = (d.turns steps).flatMap Turn.gone ++ (d.run steps).waiting
  fetched : ((d.turns steps).flatMap Turn.fetched ++ (d.run steps).waiting).Sublist
    ((d.turns steps).flatMap Turn.arrivals)
  newest : (d.run steps).waiting <:+ (d.turns steps).flatMap Turn.arrivals
  /-- The host gets the event bits raised since it asked last, or since the last reset. -/
  events : ∀ past since rest, steps = past ++ since ++ .takeEvents :: rest →
    (past = [] ∨ ∃ s ∈ past.getLast?, s.Clears) → (∀ s ∈ since, ¬ s.Clears) →
    ((d.run (past ++ since)).perform .takeEvents).2.reply =
      .events ((since.map Step.bits).foldl (· ||| ·) 0)

namespace Turn

variable {t : Turn n} {l : Backlog}

theorem config_after (t : Turn n) : t.after.config = t.before.config := by
  obtain ⟨d, s⟩ := t
  cases s with
  | record c => cases c <;> rfl
  | push m =>
    simp only [after, perform]
    split <;> rfl
  | _ => rfl

/-- A legal message is received. -/
theorem received_legal (h : t.before.mailbox.queue.Holds l) (hn : ByteRing.minCapacity ≤ n) {m : Message}
    (hstep : t.step = .handle (.received m)) (hm : m.Legal) :
    t.after.mailbox.queue.Holds ((if l.Fits n m then l else []) ++ [m]) ∧
      t.told = (t.before.config.inStandby t.before.off m).2.1.map (·, t.before.mailbox) ++
        [(.messageAvailable, t.after.mailbox)] := by
  obtain ⟨q', dropped, hq', hl⟩ := h.pushNewest hn hm
  obtain ⟨hmailbox, htold⟩ :=
    @Mailbox.deliver_of_pushed n t.before.mailbox t.before.config t.before.off _ _ _ hq'
  have hafter : t.after.mailbox = { t.before.mailbox with queue := q' } := by
    rw [after, hstep, perform, handle]
    exact hmailbox
  rw [hafter]
  refine ⟨hl, ?_⟩
  rw [told, hstep]
  exact htold

/-- Nothing becomes of a message that the queue does not take. -/
theorem received_refused {m : Message} (hstep : t.step = .handle (.received m)) (hm : ¬ m.Legal) :
    t.after = t.before ∧ t.told = (t.before.config.inStandby t.before.off m).2.1.map (·, t.before.mailbox) := by
  have hpush : t.before.mailbox.queue.pushNewest m = (t.before.mailbox.queue, .error .invalidLength, []) := by
    rw [ByteRing.pushNewest, ByteRing.push_of_not_legal _ hm]
  obtain ⟨hmailbox, htold⟩ :=
    @Mailbox.deliver_of_refused n t.before.mailbox t.before.config t.before.off _ _ _ hpush
  constructor
  · rw [after, hstep, perform, handle]
    simp only [hmailbox]
  · rw [told, hstep]
    exact htold

theorem balance_still (h : t.before.mailbox.queue.Holds l) (hqueue : t.after.mailbox.queue = t.before.mailbox.queue)
    (harrivals : t.arrivals = []) (hgone : t.gone = []) :
    ∃ l', t.after.mailbox.queue.Holds l' ∧ l ++ t.arrivals = t.gone ++ l' :=
  ⟨l, by rwa [hqueue], by rw [harrivals, hgone, List.append_nil, List.nil_append]⟩

theorem balance_received {d : Desk n} (h : d.mailbox.queue.Holds l) (hn : ByteRing.minCapacity ≤ n) (m : Message) :
    ∃ l', (after ⟨d, .handle (.received m)⟩).mailbox.queue.Holds l' ∧
      l ++ arrivals ⟨d, .handle (.received m)⟩ = gone ⟨d, .handle (.received m)⟩ ++ l' := by
  have hwaiting : d.waiting = l := h.waiting
  by_cases hm : m.Legal
  · refine ⟨_, (received_legal h hn rfl hm).1, ?_⟩
    have harrivals : (⟨d, .handle (.received m)⟩ : Turn n).arrivals = [m] := if_pos hm
    have hgone : (⟨d, .handle (.received m)⟩ : Turn n).gone = if l.Fits n m then [] else l := by
      simp only [gone, fetched, report, perform, handle, lost, hwaiting, hm]
      by_cases hf : l.Fits n m <;> simp [hf]
    rw [harrivals, hgone, ← List.append_assoc]
    split <;> simp
  · have hqueue := congrArg (·.mailbox.queue) (received_refused (t := ⟨d, .handle (.received m)⟩) rfl hm).1
    refine balance_still h hqueue (if_neg hm) ?_
    simp [gone, fetched, report, perform, handle, lost, hm]

theorem balance_pop {d : Desk n} (h : d.mailbox.queue.Holds l) :
    ∃ l', (after ⟨d, .pop⟩).mailbox.queue.Holds l' ∧ l ++ arrivals ⟨d, .pop⟩ = gone ⟨d, .pop⟩ ++ l' := by
  cases l with
  | nil =>
    have hpop : d.mailbox.queue.pop = (d.mailbox.queue, none, []) := h.pop_nil
    refine balance_still h ?_ rfl ?_
    · simp [after, perform, Mailbox.pop, hpop]
    · simp [gone, fetched, report, perform, Mailbox.pop, hpop, lost]
  | cons m l =>
    obtain ⟨q', hq', hl⟩ := h.pop
    have hpop : d.mailbox.queue.pop = (q', some m, []) := hq'
    refine ⟨l, ?_, ?_⟩
    · simpa [after, perform, Mailbox.pop, hpop] using hl
    · simp [arrivals, gone, fetched, report, perform, Mailbox.pop, hpop, lost]

theorem balance_push {d : Desk n} (h : d.mailbox.queue.Holds l) (m : Message) :
    ∃ l', (after ⟨d, .push m⟩).mailbox.queue.Holds l' ∧
      l ++ arrivals ⟨d, .push m⟩ = gone ⟨d, .push m⟩ ++ l' := by
  by_cases hm : m.Legal
  · by_cases hf : l.Fits n m
    · obtain ⟨q', hq', hl⟩ := h.push_fits hm hf
      have hpush : d.mailbox.queue.push m = (q', .ok ()) := hq'
      refine ⟨l ++ [m], ?_, ?_⟩
      · simpa [after, perform, hpush] using hl
      · simp [arrivals, gone, fetched, report, perform, hpush, lost]
    · obtain ⟨q', hq', hl⟩ := h.push_full hm hf
      have hpush : d.mailbox.queue.push m = (q', .error .overflow) := hq'
      refine ⟨l, ?_, ?_⟩
      · simpa [after, perform, hpush] using hl
      · simp [arrivals, gone, fetched, report, perform, hpush, lost]
  · have hpush : d.mailbox.queue.push m = (d.mailbox.queue, .error .invalidLength) :=
      ByteRing.push_of_not_legal _ hm
    refine balance_still h ?_ ?_ ?_
    · simp [after, perform, hpush]
    · simp [arrivals, report, perform, hpush]
    · simp [gone, fetched, report, perform, hpush, lost]

/-- What waits and what comes in is, in this order, what leaves and what waits then. -/
theorem balance (h : t.before.mailbox.queue.Holds l) (hn : ByteRing.minCapacity ≤ n) :
    ∃ l', t.after.mailbox.queue.Holds l' ∧ l ++ t.arrivals = t.gone ++ l' := by
  obtain ⟨d, s⟩ := t
  cases s with
  | handle c =>
    cases c with
    | received m => exact balance_received h hn m
    | sendOk => exact balance_still h rfl rfl rfl
    | sendFailed => exact balance_still h rfl rfl rfl
  | pop => exact balance_pop h
  | push m => exact balance_push h m
  | reset =>
    have hwaiting : d.waiting = l := h.waiting
    refine ⟨[], h.flush, ?_⟩
    simp [arrivals, gone, fetched, report, perform, lost, hwaiting]
  | record c => cases c <;> exact balance_still h rfl rfl rfl
  | takeEvents => exact balance_still h rfl rfl rfl
  | setOff off => exact balance_still h rfl rfl rfl
  | raiseEvents bits => exact balance_still h rfl rfl rfl

theorem told_result {c : Completion} (hstep : t.step = .handle c) (hc : ∀ m, c ≠ .received m) :
    t.told = [(.eventsPending, t.after.mailbox)] := by
  obtain ⟨d, s⟩ := t
  obtain rfl : s = .handle c := hstep
  cases c with
  | received m => exact absurd rfl (hc m)
  | sendOk => rfl
  | sendFailed => rfl

theorem told_of_ne_handle (h : ∀ c, t.step ≠ .handle c) : t.told = [] := by
  obtain ⟨d, s⟩ := t
  cases s with
  | handle c => exact absurd rfl (h c)
  | _ => rfl

theorem calls_report (t : Turn n) : t.report.calls = t.told.map (·.1) := by
  obtain ⟨d, s⟩ := t
  cases s with
  | record c => cases c <;> rfl
  | push m =>
    simp only [report, perform]
    split <;> rfl
  | _ => rfl

theorem events_of_clears (h : t.step.Clears) : t.after.mailbox.events = 0 := by
  obtain ⟨d, s⟩ := t
  obtain rfl | rfl := h <;> rfl

theorem events_of_not_clears (h : ¬ t.step.Clears) :
    t.after.mailbox.events = t.before.mailbox.events ||| t.step.bits := by
  obtain ⟨d, s⟩ := t
  cases s with
  | handle c =>
    cases c with
    | received m =>
      simp only [after, perform, handle, Mailbox.deliver, Mailbox.deliverMessage, Step.bits]
      split <;> simp [EventBits.ofCompletion?]
    | sendOk => rfl
    | sendFailed => rfl
  | record c => cases c <;> simp [after, perform, Mailbox.record?, EventBits.ofCompletion?, Step.bits, Mailbox.raiseEvents]
  | push m =>
    simp only [after, perform, Step.bits]
    split <;> simp
  | takeEvents => exact absurd (.inl rfl) h
  | reset => exact absurd (.inr rfl) h
  | pop => simp [after, perform, Mailbox.pop, Step.bits]
  | setOff off => simp [after, perform, Step.bits]
  | raiseEvents bits => rfl

end Turn

variable {d : Desk n} {l : Backlog}

theorem turns_before (h : d.mailbox.queue.Holds l) (hn : ByteRing.minCapacity ≤ n) {steps : List Step} {t : Turn n}
    (ht : t ∈ d.turns steps) :
    (∃ l', t.before.mailbox.queue.Holds l') ∧ t.before.config = d.config := by
  induction steps generalizing d l with
  | nil => exact absurd ht List.not_mem_nil
  | cons s rest ih =>
    obtain rfl | ht := List.mem_cons.1 ht
    · exact ⟨⟨l, h⟩, rfl⟩
    · obtain ⟨l', hl', -⟩ := Turn.balance (t := ⟨d, s⟩) h hn
      obtain ⟨hholds, hconfig⟩ := ih hl' ht
      exact ⟨hholds, hconfig.trans (Turn.config_after ⟨d, s⟩)⟩

theorem run_account (h : d.mailbox.queue.Holds l) (hn : ByteRing.minCapacity ≤ n) (steps : List Step) :
    ∃ l', (d.run steps).mailbox.queue.Holds l' ∧
      l ++ (d.turns steps).flatMap Turn.arrivals = (d.turns steps).flatMap Turn.gone ++ l' := by
  -- By induction on the steps, with the balance of each turn.
  induction steps generalizing d l with
  | nil => exact ⟨l, h, by simp [turns]⟩
  | cons s rest ih =>
    obtain ⟨l1, hl1, hturn⟩ := Turn.balance (t := ⟨d, s⟩) h hn
    obtain ⟨l2, hl2, hrest⟩ := ih hl1
    refine ⟨l2, hl2, ?_⟩
    calc l ++ (d.turns (s :: rest)).flatMap Turn.arrivals
        = (l ++ Turn.arrivals ⟨d, s⟩) ++ ((d.perform s).1.turns rest).flatMap Turn.arrivals := by
          rw [turns, List.flatMap_cons, List.append_assoc]
      _ = Turn.gone ⟨d, s⟩ ++ (l1 ++ ((d.perform s).1.turns rest).flatMap Turn.arrivals) := by
          rw [hturn, List.append_assoc]
      _ = Turn.gone ⟨d, s⟩ ++ (((d.perform s).1.turns rest).flatMap Turn.gone ++ l2) := congrArg _ hrest
      _ = (d.turns (s :: rest)).flatMap Turn.gone ++ l2 := by rw [turns, List.flatMap_cons, List.append_assoc]

theorem run_events {since : List Step} (h : ∀ s ∈ since, ¬ s.Clears) (d : Desk n) :
    (d.run since).mailbox.events = (since.map Step.bits).foldl (· ||| ·) d.mailbox.events := by
  induction since generalizing d with
  | nil => rfl
  | cons s rest ih =>
    have hs : (d.perform s).1.mailbox.events = _ := Turn.events_of_not_clears (t := ⟨d, s⟩) (h s List.mem_cons_self)
    rw [run, ih fun x hx => h x (List.mem_cons_of_mem _ hx), hs]
    rfl

theorem fetched_sublist_gone (ts : List (Turn n)) : (ts.flatMap Turn.fetched).Sublist (ts.flatMap Turn.gone) := by
  induction ts with
  | nil => exact List.Sublist.refl _
  | cons t ts ih => exact (List.sublist_append_left _ _).append ih

/-- Over every history of a new desk. -/
theorem service_contract (h : ByteRing.minCapacity ≤ n) (c : Config) (off : Bool) (steps : List Step) :
    Contract (opened h c off) steps := by
  have hnew : (opened h c off).mailbox.queue.Holds [] := ByteRing.holds_empty h
  obtain ⟨l, hl, haccount⟩ := run_account hnew h steps
  rw [List.nil_append, ← hl.waiting] at haccount
  refine {
    received := fun t ht m hstep hm => ?_
    empty := fun t ht hstep => ?_
    result := fun t ht c hstep hc => Turn.told_result hstep hc
    silent := fun t ht hstep => Turn.told_of_ne_handle hstep
    calls := fun t ht => t.calls_report
    account := haccount
    fetched := ?_
    newest := ⟨_, haccount.symm⟩
    events := fun past since rest hsteps hpast hsince => ?_ }
  · obtain ⟨⟨l', hl'⟩, hconfig⟩ := turns_before hnew h ht
    obtain ⟨hholds, htold⟩ := Turn.received_legal hl' h hstep hm
    rw [hconfig] at htold
    exact ⟨⟨_, hholds.waiting⟩, _, htold, Config.presses_of_wakes, Config.presses_of_not_wakes⟩
  · obtain ⟨hafter, htold⟩ := Turn.received_refused hstep (by decide)
    rw [Config.presses_of_not_wakes] at htold
    · exact ⟨hafter, htold⟩
    · rintro ⟨-, command, -, -, -, hcommand, -⟩
      simp at hcommand
  · rw [haccount]
    exact (fetched_sublist_gone _).append_right _
  · have hpast : ((opened h c off).run past).mailbox.events = 0 := by
      obtain rfl | ⟨s, hs, hclears⟩ := hpast
      · rfl
      · obtain ⟨p, rfl⟩ := List.getLast?_eq_some_iff.1 hs
        rw [run_append]
        exact Turn.events_of_clears (t := ⟨_, s⟩) hclears
    rw [run_append]
    exact congrArg Reply.events ((run_events hsince _).trans (by rw [hpast]))

/-- In the smallest queue, with the system in standby: a message presses the power button and waits, the
next one takes its place. -/
theorem service_contract_smallest : ByteRing.minCapacity ≤ 18 ∧
    let d : Desk 18 := opened (by decide) {} true
    let steps : List Step := [.handle (.received [0x4F, 0x04]), .handle .sendFailed, .takeEvents,
      .handle (.received (.replicate 16 0)), .pop]
    Contract d steps ∧
      (d.turns steps).map (fun t => t.report.calls) =
        [[.press 200, .messageAvailable], [.eventsPending], [], [.messageAvailable], []] ∧
      (d.turns steps).flatMap Turn.lost = [[0x4F, 0x04]] ∧
      (d.turns steps).flatMap Turn.fetched = [.replicate 16 0] :=
  ⟨by decide, service_contract _ _ _ _, by decide, by decide, by decide⟩

end Desk
end HdmiCec
