import HdmiCec.Proofs.Device.Schedule
import Mathlib.Algebra.Order.BigOperators.Group.List
import Mathlib.Algebra.Order.Ring.Nat

/-! A device comes to rest by itself (`Sound.settle`). The line's task is through with its events and requests after
one turn, as no wait that the engine arms is over at once, and each turn that a call can take brings it nearer to
its end. -/
namespace HdmiCec

variable {w : Option Watch}

theorem LineAction.foldl_rearm (as : List LineAction) (time : Nat) (w : Option Watch) :
    (as.foldl (LineAction.watch time) w).map (·.wait) = as.foldl LineAction.rearm (w.map (·.wait)) := by
  induction as generalizing w with
  | nil => rfl
  | cons a as ih => cases a <;> exact ih _

namespace Engine

variable {e : Engine} {v : Option Wait}

theorem Awaits.timeout_pos {v : Wait} (h : e.Awaits v) {k : Ticks} (hk : v.timeout = some k) : 0 < k := by
  refine Nat.pos_of_ne_zero fun h0 => ?_
  have hidle : e.state = .idle := h.ticks.1 (by rw [Wait.ticks, hk, h0]; rfl)
  rw [Awaits, hidle] at h
  rw [h] at hk
  cases hk

theorem rearm_submit (e : Engine) (m : Message) (v : Option Wait) : Turn.rearm v ⟨e, .submit m⟩ = v := by
  by_cases ha : e.Accepts m
  · rw [Turn.rearm, Turn.did, answer_submit ha]
    rfl
  · obtain ⟨x, hx⟩ := answer_submit_refused ha
    rw [Turn.rearm, Turn.did, hx]
    rfl

theorem rearm_setAddress (e : Engine) (a : LogicalAddress) (v : Option Wait) : Turn.rearm v ⟨e, .setAddress a⟩ = v := by
  by_cases ha : a.Assignable
  · rw [Turn.rearm, Turn.did, answer, Engine.setAddress, if_pos ha]
    rfl
  · rw [Turn.rearm, Turn.did, answer, Engine.setAddress, if_neg ha]
    rfl

end Engine

namespace Watch

theorem event?_eq_none {now : Nat} {level : Level} :
    Watch.event? w now level = none ↔ ∀ v ∈ w, v.edge = none ∧ v.deadline? ≠ some now := by
  cases w with
  | none => simp [Watch.event?]
  | some v => cases ht : v.edge <;> simp [Watch.event?, ht]

theorem deadline?_ne_now {e : Engine} {v : Watch} {now : Nat} (h : e.Awaits v.wait) (hv : v.since = now) :
    v.deadline? ≠ some now := by
  intro hd
  obtain ⟨k, hk, hnow⟩ := Option.map_eq_some_iff.1 hd
  have hpos : 0 < k := h.timeout_pos hk
  have hsum : v.since + k = now := hnow
  omega

end Watch

namespace Device

variable {d e : Device}

/-- The wait under way goes with the engine's state. -/
theorem Turn.armed {t : Turn} (h : t.before.Watches w) (hd : t.before.engine.Steady)
    (ha : t.before.engine.Armed (w.map (·.wait))) : t.after.engine.Armed ((t.watch w).map (·.wait)) := by
  obtain ⟨d, x⟩ := t
  cases x with
  | event =>
    simp only [after, happen, h.takeEvent_eq, watch]
    cases Watch.event? w d.now d.level with
    | none => exact ha
    | some y =>
      have hnone : d.engine.Armed none := fun _ hv => by cases hv
      dsimp only
      rw [engine_onEvent, LineAction.foldl_rearm]
      exact hnone.after hd y.2
  | control =>
    cases hr : d.request? with
    | none =>
      rw [after, happen, takeControl_of_none hr, watch]
      simp only [hr]
      exact ha
    | some c =>
      obtain ⟨result, heq⟩ := takeControl_of_request? hr
      rw [after, happen, heq, watch]
      simp only [hr, engine_absorb, LineAction.foldl_rearm]
      exact ha.after hd c.call
  | turn id =>
    cases hs : d.stage? id with
    | none =>
      rw [after, happen, pollCall_of_none hs]
      exact ha
    | some c =>
      obtain ⟨calls, results, heq⟩ := pollCall_of_stage? hs
      rw [after, happen, heq]
      obtain he | ⟨m, he⟩ := (d.turn_goes c).engine
      · simp only [he]
        exact ha
      · simp only [he]
        have hnext := ha.after hd (.submit m)
        rwa [Engine.rearm_submit] at hnext
  | hold low =>
    rw [after, happen, hold_eq]
    have hsame : (watch w ⟨d, .hold low⟩).map (·.wait) = w.map (·.wait) := by
      simp only [watch, Option.map_map]
      congr 1
      funext v
      obtain hv | ⟨-, hv⟩ := v.note_cases d.now (d.level.edge? (after ⟨d, .hold low⟩).level) <;> simp [hv]
    rw [hsame]
    exact ha
  | setAddress a =>
    obtain ⟨notices, heq⟩ := d.happen_setAddress a
    have hnext := ha.after hd (.setAddress a)
    rw [Engine.rearm_setAddress] at hnext
    rw [after, heq]
    exact hnext
  | host =>
    obtain ⟨received, resultPending, mailbox, calls, notices, heq⟩ := d.serveNext_eq
    rw [after, happen, heq]
    exact ha
  | cancel id =>
    obtain ⟨locked, heq⟩ := d.cancel_eq id
    rw [after, happen, heq]
    exact ha
  | _ => exact ha

structure Numbered (d : Device) : Prop where
  nodup : (d.calls.map (·.1)).Nodup
  fresh : ∀ x ∈ d.calls, x.1 < d.nextId

theorem Numbered.stage?_of_mem (h : d.Numbered) {x : Nat × Call} (hx : x ∈ d.calls) : d.stage? x.1 = some x.2 := by
  have find : ∀ l : List (Nat × Call), (l.map (·.1)).Nodup → x ∈ l → l.find? (·.1 == x.1) = some x := by
    intro l hn hx
    induction l with
    | nil => cases hx
    | cons y l ih =>
      rw [List.map_cons, List.nodup_cons] at hn
      obtain rfl | hx := List.mem_cons.1 hx
      · simp
      · have hne : ¬ y.1 = x.1 := fun heq => hn.1 (heq ▸ List.mem_map_of_mem hx)
        rw [List.find?_cons_of_neg (by simpa using hne)]
        exact ih hn.2 hx
  rw [stage?, find d.calls h.nodup hx]
  rfl

/-- No call is made, and those that there were go on or are over. -/
theorem Numbered.of_sublist (h : d.Numbered) (hc : (e.calls.map (·.1)).Sublist (d.calls.map (·.1)))
    (hn : e.nextId = d.nextId) : e.Numbered where
  nodup := hc.nodup h.nodup
  fresh := fun x hx => by
    obtain ⟨y, hy, heq⟩ := List.mem_map.1 (hc.subset (List.mem_map_of_mem hx))
    rw [hn, ← heq]
    exact h.fresh y hy

theorem Numbered.begin (h : d.Numbered) (c : Call) : (d.begin c).Numbered where
  nodup := by
    have hnew : ∀ x ∈ d.calls, ¬ x.1 = d.nextId := fun x hx => Nat.ne_of_lt (h.fresh x hx)
    simpa [Device.begin, List.nodup_append] using ⟨h.nodup, fun i c hc => hnew (i, c) hc⟩
  fresh := fun x hx => by
    obtain hx | hx := List.mem_append.1 hx
    · exact Nat.lt_succ_of_lt (h.fresh x hx)
    · rw [List.mem_singleton.1 hx]
      exact Nat.lt_succ_self _

theorem Numbered.happen (h : d.Numbered) (x : Happening) : (d.happen x).Numbered := by
  cases x with
  | event =>
    obtain ⟨-, hc, hn⟩ := d.line_keeps (x := .event) (.inl rfl)
    exact h.of_sublist (hc ▸ .refl _) hn
  | control =>
    obtain ⟨-, hc, hn⟩ := d.line_keeps (x := .control) (.inr rfl)
    exact h.of_sublist (hc ▸ .refl _) hn
  | turn id =>
    cases hs : d.stage? id with
    | none =>
      rw [Device.happen, pollCall_of_none hs]
      exact h
    | some c =>
      obtain ⟨engine, controls, lastResult, locked, mailbox, notices, hturn⟩ := (d.turn_goes c).eq
      obtain ⟨c', -, hp⟩ | ⟨r, -, hp⟩ := pollCall_cases hs
      · rw [Device.happen, hp, hturn]
        refine h.of_sublist ?_ rfl
        have hsame : (d.calls.map fun x => if x.1 == id then (id, c') else x).map (·.1) = d.calls.map (·.1) := by
          rw [List.map_map]
          refine List.map_congr_left fun x _ => ?_
          by_cases hx : x.1 = id <;> simp [hx]
        exact hsame ▸ .refl _
      · rw [Device.happen, hp, hturn]
        exact h.of_sublist (List.filter_sublist.map _) rfl
  | enable on => exact h.begin _
  | send m => exact h.begin _
  | sendWait m => exact h.begin _
  | host =>
    obtain ⟨received, resultPending, mailbox, calls, notices, heq⟩ := d.serveNext_eq
    rw [Device.happen, heq]
    exact h.of_sublist (.refl _) rfl
  | cancel id =>
    obtain ⟨locked, heq⟩ := d.cancel_eq id
    rw [Device.happen, heq]
    exact h.of_sublist (List.filter_sublist.map _) rfl
  | setAddress a =>
    obtain ⟨notices, heq⟩ := d.happen_setAddress a
    rw [heq]
    exact h.of_sublist (.refl _) rfl
  | hold low =>
    rw [Device.happen, hold_eq]
    exact h.of_sublist (.refl _) rfl
  | _ => exact h.of_sublist (.refl _) rfl

structure Sound (d : Device) : Prop where
  watches : ∃ w, d.Watches w ∧ d.engine.Armed (w.map (·.wait))
  steady : d.engine.Steady
  numbered : d.Numbered

namespace Sound

theorem happen (h : d.Sound) {x : Happening} (hp : Turn.prompt ⟨d, x⟩ = true) : (d.happen x).Sound := by
  obtain ⟨w, hw, ha⟩ := h.watches
  exact ⟨⟨_, Turn.watches hw hp, Turn.armed hw h.steady ha⟩, steady_happen h.steady x, h.numbered.happen x⟩

theorem through (h : d.Sound) {hs : List Happening} (hp : d.Prompt hs) : (d.through hs).Sound := by
  induction hs generalizing d with
  | nil => exact h
  | cons x rest ih =>
    rw [Prompt, turns, List.forall_mem_cons] at hp
    exact ih (h.happen hp.1) hp.2

end Sound

/-- While the clock stands still the line's task is on time. -/
theorem prompt_of_instant {x : Happening} (h : x.isInstant = true) : Turn.prompt ⟨d, x⟩ = true := by
  cases x with
  | pass k => cases h
  | _ => rfl

theorem Instantly.prompt (h : d.Instantly e) : ∃ hs, d.Prompt hs ∧ e = d.through hs := by
  obtain ⟨hs, hi, rfl⟩ := h
  refine ⟨hs, fun t ht => ?_, rfl⟩
  obtain ⟨past, rest, rfl, -⟩ := mem_turns ht
  exact prompt_of_instant (hi _ (by simp))

theorem Sound.instantly (h : d.Sound) (hi : d.Instantly e) : e.Sound := by
  obtain ⟨hs, hp, rfl⟩ := hi.prompt
  exact h.through hp

theorem lineReady_eq_false : d.lineReady = false ↔ d.event? = none ∧ d.controls = [] := by
  unfold lineReady event? EdgeTimer.due
  cases d.edgeSeen with
  | true => simp
  | false => cases d.timer.deadline? <;> simp

/-- No event is to come: each wait either had none or has just been armed. -/
theorem event?_eq_none {w w' : Option Watch} (hw : e.Watches w') (ha : e.engine.Armed (w'.map (·.wait)))
    (hquiet : Watch.event? w e.now e.level = none) (hnew : ∀ v ∈ w', v ∈ w ∨ v.since = e.now ∧ v.edge = none) :
    e.event? = none := by
  rw [hw.event?, Watch.event?_eq_none]
  intro v hv
  obtain hold | ⟨hsince, hedge⟩ := hnew v hv
  · exact Watch.event?_eq_none.1 hquiet v hold
  · exact ⟨hedge, Watch.deadline?_ne_now (ha v.wait (by rw [Option.mem_def.1 hv]; rfl)) hsince⟩

namespace Sound

theorem event?_takeEvent (h : d.Sound) : d.takeEvent.event? = none := by
  -- What the event leaves armed counts from now.
  obtain ⟨w, hw, ha⟩ := h.watches
  have hnext : d.takeEvent.Watches (Turn.watch w ⟨d, .event⟩) := hw.event
  have harmed : d.takeEvent.engine.Armed ((Turn.watch w ⟨d, .event⟩).map (·.wait)) :=
    Turn.armed (t := ⟨d, .event⟩) hw h.steady ha
  cases he : Watch.event? w d.now d.level with
  | none => rw [hw.takeEvent_eq, he]; exact hw.event?.trans he
  | some x =>
    have hnow : d.takeEvent.now = d.now := (d.line_keeps (x := .event) (.inl rfl)).1
    refine event?_eq_none (w := none) hnext harmed rfl fun v hv => ?_
    simp only [Turn.watch, he] at hv
    rw [hnow, ← hw.time_of_event? he]
    exact Watch.mem_foldl hv

theorem event?_takeControl (h : d.Sound) (hquiet : d.event? = none) : d.takeControl.event? = none := by
  obtain ⟨w, hw, ha⟩ := h.watches
  have hnext : d.takeControl.Watches (Turn.watch w ⟨d, .control⟩) := hw.control
  have harmed : d.takeControl.engine.Armed ((Turn.watch w ⟨d, .control⟩).map (·.wait)) :=
    Turn.armed (t := ⟨d, .control⟩) hw h.steady ha
  cases hr : d.request? with
  | none => rwa [takeControl_of_none hr]
  | some c =>
    have hnow : d.takeControl.now = d.now := (d.line_keeps (x := .control) (.inr rfl)).1
    rw [hw.event?, Watch.event?_eq_none, ← hnow] at hquiet
    refine event?_eq_none (w := w) hnext harmed (Watch.event?_eq_none.2 hquiet) fun v hv => ?_
    simp only [Turn.watch, hr] at hv
    rw [hnow]
    exact Watch.mem_foldl hv

theorem takeControls (h : d.Sound) (hquiet : d.event? = none) (n : Nat) :
    (d.through (List.replicate n .control)).event? = none := by
  induction n generalizing d with
  | zero => exact hquiet
  | succ n ih => exact ih (h.happen (x := .control) rfl) (h.event?_takeControl hquiet)

theorem pollLine (h : d.Sound) : d.pollLine.lineReady = false := by
  refine lineReady_eq_false.2 ⟨?_, d.controls_pollLine⟩
  rw [pollLine_eq]
  exact takeControls (h.happen (x := .event) rfl) h.event?_takeEvent _

end Sound

def Call.rank : Call → Nat
  | .enabling _ | .starting | .awaiting => 1
  | .submitting _ | .startingLocked => 2
  | .locking _ => 3

def work (d : Device) : Nat := (d.calls.map fun x => Call.rank x.2).sum

theorem turn_of_not_ready {c : Call} (h : d.callReady c = false) : d.turn c = (d, .inl c) := by
  cases c with
  | submitting m => cases h
  | locking m =>
    have hlocked : d.locked = true := by simpa [callReady] using h
    simp [turn, hlocked]
  | awaiting =>
    have hnone : d.lastResult = none := by simpa [callReady] using h
    simp [turn, awaitResult, hnone]
  | enabling | starting | startingLocked =>
    have hroom : d.hasRoom = false := h
    simp [turn, askToStart, askToStartLocked, hroom]

/-- A call that can go on does not stay where it is. -/
theorem turn_ne_stays {c : Call} (h : d.callReady c = true) : (d.turn c).2 ≠ .inl c := by
  intro hstays
  cases c with
  | submitting m =>
    simp only [turn] at hstays
    split at hstays
    · cases askToStart_next hstays
    · cases hstays
  | locking m =>
    have hfree : ¬ d.locked = true := by simpa [callReady] using h
    simp only [turn, if_neg hfree] at hstays
    split at hstays
    · obtain h | h := askToStartLocked_next hstays <;> cases h
    · cases hstays
  | awaiting =>
    obtain ⟨r, hr⟩ := Option.isSome_iff_exists.1 h
    simp [turn, awaitResult, hr] at hstays
  | startingLocked =>
    have hroom : d.hasRoom = true := h
    simp only [turn, askToStartLocked, if_pos hroom] at hstays
    cases awaitResult_next hstays
  | enabling | starting =>
    have hroom : d.hasRoom = true := h
    simp [turn, askToStart, hroom] at hstays

theorem turn_rank {c c' : Call} (h : d.callReady c = true) (hnext : (d.turn c).2 = .inl c') :
    Call.rank c' < Call.rank c := by
  cases turn_leads hnext with
  | stays => exact absurd hnext (turn_ne_stays h)
  | _ => simp [Call.rank]

theorem pollCall_of_not_ready (h : d.Numbered) {id : Nat} {c : Call} (hs : d.stage? id = some c)
    (hc : d.callReady c = false) : d.pollCall id = d := by
  have hsame : (d.calls.map fun x => if x.1 == id then (id, c) else x) = d.calls := by
    refine (List.map_congr_left fun x hx => ?_).trans d.calls.map_id
    by_cases hid : x.1 = id
    · have hx' := h.stage?_of_mem hx
      rw [hid, hs] at hx'
      simp [← hid, Option.some.inj hx']
    · simp [hid]
  simp only [pollCall, hs, turn_of_not_ready hc, hsame]

theorem sum_filter {l : List (Nat × Call)} (id : Nat) : ((l.filter (·.1 != id)).map fun x => Call.rank x.2).sum =
    (l.map fun x => if x.1 = id then 0 else Call.rank x.2).sum := by
  induction l with
  | nil => rfl
  | cons x l ih => by_cases hx : x.1 = id <;> simp [hx, ih]

theorem work_pollCall (h : d.Numbered) {id : Nat} {c : Call} (hs : d.stage? id = some c) (hc : d.callReady c = true) :
    (d.pollCall id).work < d.work := by
  have hmem := mem_of_stage? hs
  have hunique : ∀ x ∈ d.calls, x.1 = id → x.2 = c := fun x hx hid => by
    have hx' := h.stage?_of_mem hx
    rw [hid, hs] at hx'
    exact (Option.some.inj hx').symm
  have lower : ∀ n, n < Call.rank c →
      (d.calls.map fun x => if x.1 = id then n else Call.rank x.2).sum < d.work := by
    intro n hn
    refine List.sum_lt_sum _ _ (fun x hx => ?_) ⟨(id, c), hmem, by simpa using hn⟩
    by_cases hid : x.1 = id
    · rw [if_pos hid, hunique x hx hid]
      exact hn.le
    · rw [if_neg hid]
  obtain ⟨c', hnext, hp⟩ | ⟨r, -, hp⟩ := pollCall_cases hs
  · have hwork : (d.pollCall id).work = (d.calls.map fun x => if x.1 = id then Call.rank c' else Call.rank x.2).sum := by
      rw [hp, work, List.map_map]
      refine congrArg _ (List.map_congr_left fun x _ => ?_)
      by_cases hid : x.1 = id <;> simp [hid]
    rw [hwork]
    exact lower _ (turn_rank hc hnext)
  · have hwork : (d.pollCall id).work = (d.calls.map fun x => if x.1 = id then 0 else Call.rank x.2).sum := by
      rw [hp, work]
      exact sum_filter id
    rw [hwork]
    exact lower _ (by cases c <;> simp [Call.rank])

/-- Either no call can go on, or one at least comes nearer to its end. -/
theorem Sound.polls (h : d.Sound) (ids : List Nat) :
    (ids.foldl pollCall d = d ∧ ∀ id ∈ ids, ∀ c, d.stage? id = some c → d.callReady c = false) ∨
      (ids.foldl pollCall d).work < d.work := by
  -- A call that cannot go on is left as it is, so the calls behind it find the device that it found.
  induction ids generalizing d with
  | nil => exact .inl ⟨rfl, by simp⟩
  | cons id ids ih =>
    rw [List.foldl_cons]
    cases hs : d.stage? id with
    | none =>
      rw [pollCall_of_none hs]
      exact (ih h).imp_left fun ⟨hsame, hidle⟩ => ⟨hsame, by simpa [hs] using hidle⟩
    | some c =>
      cases hc : d.callReady c with
      | false =>
        rw [pollCall_of_not_ready h.numbered hs hc]
        refine (ih h).imp_left fun ⟨hsame, hidle⟩ => ⟨hsame, ?_⟩
        rw [List.forall_mem_cons]
        refine ⟨fun c' hc' => ?_, hidle⟩
        rw [hs] at hc'
        exact Option.some.inj hc' ▸ hc
      | true =>
        have hless := work_pollCall h.numbered hs hc
        obtain ⟨hsame, -⟩ | hrest := ih (h.happen (x := .turn id) rfl)
        · exact .inr (hsame ▸ hless)
        · exact .inr (hrest.trans hless)

theorem quiet_iff : d.quiet = true ↔
    d.lineReady = false ∧ d.hostReady = false ∧ ∀ x ∈ d.calls, d.callReady x.2 = false := by
  simp [quiet, and_assoc]

theorem quiet_pollHost (hline : d.lineReady = false) (hcalls : ∀ x ∈ d.calls, d.callReady x.2 = false) :
    d.pollHost.quiet = true := by
  by_cases h : d.serving = true
  · obtain ⟨mailbox, calls, notices, heq⟩ := pollHost_of_serving h
    rw [heq]
    exact quiet_iff.2 ⟨hline, by simp [hostReady], hcalls⟩
  · rw [pollHost, if_pos h]
    exact quiet_iff.2 ⟨hline, by simp [hostReady, h], hcalls⟩

theorem calls_pollHost (d : Device) : d.pollHost.calls = d.calls := by
  by_cases h : d.serving = true
  · obtain ⟨mailbox, calls, notices, heq⟩ := pollHost_of_serving h
    rw [heq]
  · rw [pollHost, if_pos h]

/-- A round after which nobody can run, or some call is nearer to its end. -/
theorem Sound.round (h : d.Sound) : d.round.quiet = true ∨ d.round.work < d.work := by
  have hsound : d.pollLine.Sound := h.instantly d.instantly_pollLine
  obtain ⟨hsame, hidle⟩ | hless := hsound.polls (d.pollLine.calls.map (·.1))
  · refine .inl ?_
    rw [Device.round, hsame]
    exact quiet_pollHost h.pollLine fun x hx =>
      hidle x.1 (List.mem_map_of_mem hx) x.2 (hsound.numbered.stage?_of_mem hx)
  · refine .inr ?_
    have hround : d.round.work = ((d.pollLine.calls.map (·.1)).foldl pollCall d.pollLine).work := by
      rw [Device.round, work, calls_pollHost]
      rfl
    have hline : d.pollLine.work = d.work := by rw [work, calls_pollLine, work]
    rwa [hround, ← hline]

theorem Sound.rounds (h : d.Sound) {k : Nat} (hk : d.work < k) : (rounds k d).quiet = true := by
  induction k generalizing d with
  | zero => omega
  | succ k ih =>
    rw [Device.rounds]
    split
    · next hquiet => exact hquiet
    · obtain hquiet | hless := h.round
      · cases k with
        | zero => exact hquiet
        | succ k => rwa [Device.rounds, if_pos hquiet]
      · exact ih (h.instantly d.instantly_round) (by omega)

theorem work_le (d : Device) : d.work ≤ 3 * d.calls.length := by
  have hrank : ∀ c : Call, Call.rank c ≤ 3 := fun c => by cases c <;> simp [Call.rank]
  have hsum := List.sum_le_card_nsmul (d.calls.map fun x => Call.rank x.2) 3 fun n hn => by
    obtain ⟨x, -, rfl⟩ := List.mem_map.1 hn
    exact hrank x.2
  simpa [work, Nat.mul_comm] using hsum

/-- There are rounds enough for all calls. -/
theorem Sound.settle (h : d.Sound) : d.settle.quiet = true := by
  refine h.rounds (Nat.lt_of_le_of_lt d.work_le ?_)
  have hbound : 3 ≤ drainBound + 4 := by omega
  calc 3 * d.calls.length < 3 * (d.calls.length + 1) := by omega
    _ ≤ (drainBound + 4) * (d.calls.length + 1) := Nat.mul_le_mul_right _ hbound
    _ = (d.calls.length + 1) * (drainBound + 4) := Nat.mul_comm _ _

end Device
end HdmiCec
