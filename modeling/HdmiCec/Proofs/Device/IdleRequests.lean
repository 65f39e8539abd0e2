import HdmiCec.Proofs.Device.Watch
import HdmiCec.Proofs.Engine.Attended

/-! Requests that the engine does nothing about: to set about sending while it is not idle, or to be what it is,
on or off. They take no wait from the line's task and shift none: whoever makes however many of them, at whatever
times, the engine is told of the same events at the same times and the same is done to the line
(`Padded.same`). -/
namespace HdmiCec

namespace Engine

variable {e : Engine} {c : Control}

def Ignores (e : Engine) (c : Control) : Prop := (e.answer c.call).2.actions = []

instance : Decidable (e.Ignores c) := inferInstanceAs (Decidable (_ = _))

theorem actions_enter_ne_nil (e : Engine) {s : State} (hs : s ≠ .disabled) (line : Reading) :
    (e.enter s line).actions ≠ [] := by
  obtain ⟨l, v, hv⟩ := arms_enter e hs line
  rw [hv]
  simp

theorem ignores_enable_iff {on : Bool} : e.Ignores (.enable on) ↔ on = e.isEnabled := by
  constructor
  · intro h
    refine Decidable.by_contra fun hne => ?_
    simp only [Ignores, Control.call, Engine.answer, setEnabled, if_neg hne] at h
    cases on with
    | true => exact actions_enter_ne_nil e (by simp) none h
    | false => cases h
  · intro h
    rw [Ignores, Control.call, Engine.answer, setEnabled_same h]

theorem ignores_startSend_iff : e.Ignores .startSend ↔ ¬ (e.state = .idle ∧ e.isSending = true) := by
  constructor
  · intro h hi
    rw [Ignores, Control.call, Engine.answer, startSend_of_idle hi.1 hi.2] at h
    exact actions_enter_ne_nil e (by simp) none h
  · intro h
    rw [Ignores, Control.call, Engine.answer, startSend_of_not h]

theorem Ignores.answer (h : e.Ignores c) : e.answer c.call = (.nothing, { engine := e }) := by
  cases c with
  | enable on => rw [Control.call, Engine.answer, setEnabled_same (ignores_enable_iff.1 h)]
  | startSend => rw [Control.call, Engine.answer, startSend_of_not (ignores_startSend_iff.1 h)]

end Engine

namespace Device

def Happening.apart : Happening → Bool
  | .control | .turn _ | .ask _ => false
  | _ => true

def Happening.untimed : Happening → Bool
  | .event | .control | .hold _ => false
  | _ => true

def timed (d : Device) (x : EdgeTimer) : Device := { d with timer := x }

def lined (d : Device) (l : List Control) : Device := { d with controls := l }

/-- What `f` does has to do neither with the timer nor with the requests in line. -/
def Blind (f : Device → Device) : Prop := ∀ d x l, f ((d.timed x).lined l) = ((f d).timed x).lined l

def queued (d : Device) (q : List (Control × Bool)) : Device := d.lined (q.map (·.1))

def own (q : List (Control × Bool)) : List Control := (q.filter fun x => !x.2).map (·.1)

/-- `Padded d q hs hs'` holds where `hs'` is what `hs` becomes as idle requests are added, with `q` in line at
first. An idle request is made at some moment, also while the clock runs on in one go, and ignored when its turn
comes; a call that finds no room because of it goes on later. -/
inductive Padded : Device → List (Control × Bool) → List Happening → List Happening → Prop
  | done (d : Device) (q : List (Control × Bool)) : Padded d q [] []
  | extra {d : Device} {q : List (Control × Bool)} {hs hs' : List Happening} (c : Control) :
      Padded d (q ++ [(c, true)]) hs hs' → Padded d q hs (.ask c :: hs')
  | ignored {d : Device} {q : List (Control × Bool)} {hs hs' : List Happening} {c : Control} :
      d.edgeSeen = false → d.engine.Ignores c → Padded d q hs hs' → Padded d ((c, true) :: q) hs (.control :: hs')
  /-- The task takes a request that was there without them. -/
  | taken {d : Device} {q : List (Control × Bool)} {hs hs' : List Happening} {c : Control} :
      d.edgeSeen = false → Padded d.takeControl q hs hs' → Padded d ((c, false) :: q) (.control :: hs) (.control :: hs')
  /-- The task would find no request without them. -/
  | vain {d : Device} {q : List (Control × Bool)} {hs hs' : List Happening} :
      d.request? = none → Padded d q hs hs' → Padded d q (.control :: hs) hs'
  /-- With them, too, a task may look in vain. -/
  | lost {d : Device} {q : List (Control × Bool)} {hs hs' : List Happening} {x : Happening} :
      x.apart = false → (d.queued q).happen x = d.queued q → Padded d q hs hs' → Padded d q hs (x :: hs')
  | part {d : Device} {q : List (Control × Bool)} {hs hs' : List Happening} (j k : Nat) :
      Padded d q (.pass j :: .pass k :: hs) hs' → Padded d q (.pass (j + k) :: hs) hs'
  | turn {d : Device} {q : List (Control × Bool)} {hs hs' : List Happening} (id : Nat) :
      (d.queued q).hasRoom = d.hasRoom →
      Padded (d.pollCall id) (q ++ ((d.pollCall id).controls.drop d.controls.length).map (·, false)) hs hs' →
      Padded d q (.turn id :: hs) (.turn id :: hs')
  | asked {d : Device} {q : List (Control × Bool)} {hs hs' : List Happening} (c : Control) :
      Padded (d.request c) (q ++ [(c, false)]) hs hs' → Padded d q (.ask c :: hs) (.ask c :: hs')
  | other {d : Device} {q : List (Control × Bool)} {hs hs' : List Happening} {x : Happening} :
      x.apart = true → Padded (d.happen x) q hs hs' → Padded d q (x :: hs) (x :: hs')

variable {d : Device} {q : List (Control × Bool)} {l : List Control}

namespace Blind

variable {f : Device → Device}

theorem keeps (h : Blind f) (d : Device) : (f d).timer = d.timer ∧ (f d).controls = d.controls := by
  have hsame : f d = ((f d).timed d.timer).lined d.controls := h d d.timer d.controls
  have htimer := congrArg Device.timer hsame
  have hcontrols := congrArg Device.controls hsame
  exact ⟨htimer, hcontrols⟩

theorem timed (h : Blind f) (d : Device) (x : EdgeTimer) : f (d.timed x) = (f d).timed x := by
  have hboth : f (d.timed x) = ((f d).timed x).lined d.controls := h d x d.controls
  rw [← (h.keeps d).2] at hboth
  exact hboth

theorem lined (h : Blind f) (d : Device) (l : List Control) : f (d.lined l) = (f d).lined l := by
  have hboth : f (d.lined l) = ((f d).timed d.timer).lined l := h d d.timer l
  rw [← (h.keeps d).1] at hboth
  exact hboth

end Blind

theorem settleOutcome_blind (c : Completion) : Blind (settleOutcome · c) := by
  intro d x l
  cases c with
  | received m =>
    by_cases hroom : d.received.length < receivedCapacity
    · have hsame : ((d.timed x).lined l).received.length < receivedCapacity := hroom
      simp only [settleOutcome, if_pos hroom, if_pos hsame]
      rfl
    · have hsame : ¬ ((d.timed x).lined l).received.length < receivedCapacity := hroom
      simp only [settleOutcome, if_neg hroom, if_neg hsame]
      rfl
  | _ => rfl

theorem serveNext_blind : Blind serveNext := by
  intro d x l
  by_cases hserving : d.serving = true
  · cases hr : d.received with
    | nil => by_cases hp : d.resultPending = true <;> simp [serveNext, timed, lined, hserving, hr, hp]
    | cons m rest => simp [serveNext, timed, lined, hserving, hr, deliver]
  · simp [serveNext, timed, lined, hserving]

theorem absorb_blind {r : Reaction} (h : r.actions = []) (time : Nat) : Blind (absorb · r time) := by
  intro d x l
  simp only [absorb_silent _ h]
  rfl

theorem happen_blind {y : Happening} (happart : y.apart = true) (huntimed : y.untimed = true) : Blind (happen · y) := by
  intro d x l
  cases y with
  | event | hold low => cases huntimed
  | control | turn id | ask c => cases happart
  | host => exact serveNext_blind d x l
  | cancel id =>
    simp only [happen, cancel, stage?, timed, lined]
    split <;> rfl
  | setAddress a =>
    by_cases ha : a.Assignable
    · simp only [happen, Engine.setAddress, timed, lined, if_pos ha]
      exact absorb_blind rfl d.now d x l
    · simp only [happen, Engine.setAddress, timed, lined, if_neg ha]
  | _ => rfl

theorem absorb_same (d : Device) (time : Nat) : d.absorb { engine := d.engine } time = d := by
  rw [absorb_silent d rfl]
  simp

theorem absorb_lined (d : Device) (l : List Control) (r : Reaction) (time : Nat) :
    (d.lined l).absorb r time = (d.absorb r time).lined l := by
  rw [absorb_eq, absorb_eq]
  rfl

/-- The requests in line do not matter to what is done about one of them. -/
theorem control_lined (d : Device) (l : List Control) (c : Control) :
    (d.lined l).control c = (d.control c).lined l := by
  cases c with
  | startSend => exact absorb_lined d l _ _
  | enable on =>
    cases on with
    | true => exact absorb_lined d l _ _
    | false =>
      by_cases hsending : d.engine.isSending = true
      · have hsame : (d.lined l).engine.isSending = true := hsending
        rw [control, control, if_pos hsending, if_pos hsame, absorb_lined]
        rfl
      · have hsame : ¬ (d.lined l).engine.isSending = true := hsending
        rw [control, control, if_neg hsending, if_neg hsame]
        exact absorb_lined d l _ _

theorem control_ignored {c : Control} (h : d.engine.Ignores c) (hd : d.engine.Steady) : d.control c = d := by
  have hanswer := congrArg Prod.snd h.answer
  cases c with
  | startSend =>
    rw [control, show d.engine.startSend = { engine := d.engine } from hanswer]
    exact d.absorb_same d.now
  | enable on =>
    cases on with
    | true =>
      rw [control, show d.engine.setEnabled true = { engine := d.engine } from hanswer]
      exact d.absorb_same d.now
    | false =>
      have hoff : d.engine.state = .disabled := by
        simpa [Engine.isEnabled] using (Engine.ignores_enable_iff.1 h).symm
      rw [control, hd.off hoff, if_neg Bool.false_ne_true, show d.engine.setEnabled false = { engine := d.engine } from hanswer]
      exact d.absorb_same d.now

theorem onEvent_lined (d : Device) (l : List Control) (time : Nat) (r : Reaction) :
    (d.lined l).onEvent time r = (d.onEvent time r).lined l := by
  have habsorbed := absorb_lined { d with timer := d.timer.stop, edgeSeen := false } l r time
  cases ho : r.outcome with
  | none =>
    simp only [onEvent, ho]
    exact habsorbed
  | some c =>
    simp only [onEvent, ho]
    exact (congrArg (settleOutcome · c) habsorbed).trans ((settleOutcome_blind c).lined _ l)

/-- Nothing else has to do with the requests in line. -/
theorem happen_lined {x : Happening} (h : x.apart = true) (d : Device) (l : List Control) :
    (d.lined l).happen x = (d.happen x).lined l ∧ (d.happen x).controls = d.controls := by
  cases x with
  | event =>
    have hsame : (d.lined l).event? = d.event? := rfl
    cases he : d.event? with
    | none => exact ⟨by rw [happen, happen, takeEvent_of_none he, takeEvent_of_none (hsame.trans he)],
        by rw [happen, takeEvent_of_none he]⟩
    | some y =>
      obtain ⟨received, resultPending, lastResult, mailbox, notices, heq⟩ := d.onEvent_eq y.1 (d.engine.answer y.2).2
      refine ⟨?_, by rw [happen, takeEvent_of_event? he, heq]⟩
      rw [happen, happen, takeEvent_of_event? he, takeEvent_of_event? (hsame.trans he)]
      exact d.onEvent_lined l _ _
  | hold low =>
    rw [happen, happen, hold_eq, hold_eq]
    exact ⟨rfl, rfl⟩
  | control | turn id | ask c => cases h
  | _ => exact ⟨(happen_blind h rfl).lined d l, ((happen_blind h rfl).keeps d).2⟩

theorem awaitResult_timed_lined (d : Device) (x : EdgeTimer) (l : List Control) :
    ((d.timed x).lined l).awaitResult = ((d.awaitResult.1.timed x).lined l, d.awaitResult.2) := by
  simp only [awaitResult, timed, lined]
  split <;> rfl

theorem askToStart_timed_lined (x : EdgeTimer) (h : (d.lined l).hasRoom = d.hasRoom) : ((d.timed x).lined l).askToStart =
    ((d.askToStart.1.timed x).lined (l ++ d.askToStart.1.controls.drop d.controls.length), d.askToStart.2) := by
  replace h : ((d.timed x).lined l).hasRoom = d.hasRoom := h
  simp only [askToStart, h]
  split
  · simp [request, timed, lined]
  · simp [timed, lined]

theorem askToStartLocked_timed_lined (x : EdgeTimer) (h : (d.lined l).hasRoom = d.hasRoom) :
    ((d.timed x).lined l).askToStartLocked =
      ((d.askToStartLocked.1.timed x).lined (l ++ d.askToStartLocked.1.controls.drop d.controls.length),
        d.askToStartLocked.2) := by
  replace h : ((d.timed x).lined l).hasRoom = d.hasRoom := h
  simp only [askToStartLocked, h]
  split
  · have hrequest : ((d.timed x).lined l).request .startSend = ((d.request .startSend).timed x).lined (l ++ [.startSend]) :=
      rfl
    obtain ⟨lastResult, locked, heq⟩ := (d.request .startSend).awaitResult_eq
    rw [hrequest, awaitResult_timed_lined, heq]
    simp [request]
  · simp [timed, lined]

/-- A call looks at the requests in line only to see whether there is room, and adds its own at the end. -/
theorem turn_timed_lined (x : EdgeTimer) (h : (d.lined l).hasRoom = d.hasRoom) (c : Call) : ((d.timed x).lined l).turn c =
    (((d.turn c).1.timed x).lined (l ++ (d.turn c).1.controls.drop d.controls.length), (d.turn c).2) := by
  have hengine : ((d.timed x).lined l).engine = d.engine := rfl
  cases c with
  | enabling on =>
    replace h : ((d.timed x).lined l).hasRoom = d.hasRoom := h
    simp only [turn, h]
    split
    · cases on <;> simp [request, timed, lined]
    · simp [timed, lined]
  | submitting m =>
    simp only [turn, hengine]
    obtain ⟨r, hr, hsilent, -⟩ | ⟨e, he⟩ := submit_cases d.engine m
    · have hblind := absorb_blind hsilent d.now
      obtain ⟨-, hcontrols⟩ := hblind.keeps d
      have hroom : ((d.absorb r d.now).lined l).hasRoom = (d.absorb r d.now).hasRoom := by
        rw [hasRoom, hasRoom, hcontrols]
        exact h
      have hsame : ((d.timed x).lined l).absorb r ((d.timed x).lined l).now = ((d.absorb r d.now).timed x).lined l :=
        hblind d x l
      simp only [hr, hsame, ← hcontrols]
      exact askToStart_timed_lined x hroom
    · simp [he, timed, lined]
  | starting => exact askToStart_timed_lined x h
  | locking m =>
    by_cases hlocked : d.locked = true
    · simp [turn, hlocked, timed, lined]
    · have hsame : ¬ ((d.timed x).lined l).locked = true := hlocked
      simp only [turn, if_neg hlocked, if_neg hsame, hengine]
      obtain ⟨r, hr, hsilent, -⟩ | ⟨e, he⟩ := submit_cases d.engine m
      · have hblind := absorb_blind hsilent d.now
        obtain ⟨-, hcontrols⟩ := hblind.keeps d
        have hroom : (({ d.absorb r d.now with locked := true, lastResult := none } : Device).lined l).hasRoom =
            ({ d.absorb r d.now with locked := true, lastResult := none } : Device).hasRoom := by
          rw [hasRoom, hasRoom, hcontrols]
          exact h
        have hsame : ((d.timed x).lined l).absorb r ((d.timed x).lined l).now = ((d.absorb r d.now).timed x).lined l :=
          hblind d x l
        simp only [hr, hsame, ← hcontrols]
        exact askToStartLocked_timed_lined x hroom
      · simp [he, timed, lined]
  | startingLocked => exact askToStartLocked_timed_lined x h
  | awaiting =>
    obtain ⟨lastResult, locked, heq⟩ := d.awaitResult_eq
    rw [turn, turn, awaitResult_timed_lined, heq]
    simp

theorem pollCall_timed_lined (x : EdgeTimer) (h : (d.lined l).hasRoom = d.hasRoom) (id : Nat) :
    ((d.timed x).lined l).pollCall id =
      ((d.pollCall id).timed x).lined (l ++ (d.pollCall id).controls.drop d.controls.length) := by
  have hstage : ((d.timed x).lined l).stage? id = d.stage? id := rfl
  cases hs : d.stage? id with
  | none =>
    rw [pollCall_of_none (hstage.trans hs), pollCall_of_none hs]
    simp [lined]
  | some c =>
    simp only [pollCall, hstage, hs, turn_timed_lined x h]
    generalize d.turn c = p
    obtain ⟨e, c' | r⟩ := p <;> rfl

theorem controls_pollCall (d : Device) (id : Nat) : d.controls <+: (d.pollCall id).controls := by
  cases hs : d.stage? id with
  | none => simp [pollCall_of_none hs]
  | some c =>
    obtain ⟨calls, results, heq⟩ := pollCall_of_stage? hs
    rw [heq]
    exact (d.turn_goes c).controls

theorem pollCall_timed (d : Device) (x : EdgeTimer) (id : Nat) : (d.timed x).pollCall id = (d.pollCall id).timed x := by
  obtain ⟨news, hnews⟩ := d.controls_pollCall id
  have hboth := pollCall_timed_lined (d := d) (l := d.controls) x rfl id
  rw [← hnews, List.drop_left, hnews] at hboth
  exact hboth

theorem pollCall_lined (h : (d.lined l).hasRoom = d.hasRoom) (id : Nat) : (d.lined l).pollCall id =
    (d.pollCall id).lined (l ++ (d.pollCall id).controls.drop d.controls.length) := by
  have htimer : d.pollCall id = (d.pollCall id).timed d.timer := d.pollCall_timed d.timer id
  have hboth := pollCall_timed_lined d.timer h id
  rw [← htimer] at hboth
  exact hboth

theorem own_append (q p : List (Control × Bool)) : own (q ++ p) = own q ++ own p := by simp [own]

theorem own_map_false (l : List Control) : own (l.map (·, false)) = l := by
  induction l with
  | nil => rfl
  | cons c l ih => exact congrArg _ ih

/-- With idle requests added the engine is told of the same events for the same times, and everything ends up the
same but for requests in line. -/
theorem Padded.same {hs hs' : List Happening} (h : Padded d q hs hs') (hq : own q = d.controls) (hd : d.engine.Steady) :
    ((d.queued q).turns hs').filterMap Turn.event? = (d.turns hs).filterMap Turn.event? ∧
      ∃ q', (d.queued q).through hs' = (d.through hs).queued q' := by
  induction h with
  | done d q => exact ⟨rfl, q, rfl⟩
  | @extra d q hs hs' c h ih =>
    have hnext : (d.queued q).happen (.ask c) = d.queued (q ++ [(c, true)]) := by simp [happen, request, queued, lined]
    rw [turns, Device.through, hnext]
    exact ih (by rw [own_append, hq]; exact List.append_nil _) hd
  | @ignored d q hs hs' c hseen hi h ih =>
    have hrequest : (d.queued ((c, true) :: q)).request? = some c := by simp [request?, queued, lined, hseen]
    have hnext : (d.queued ((c, true) :: q)).happen .control = d.queued q := by
      rw [happen, takeControl, hrequest]
      exact control_ignored (d := d.queued q) hi hd
    rw [turns, Device.through, hnext]
    exact ih hq hd
  | @taken d q hs hs' c hseen h ih =>
    have hcontrols : d.controls = c :: own q := hq.symm
    have hrequest : d.request? = some c := by simp [request?, hcontrols, hseen]
    have hrequest' : (d.queued ((c, false) :: q)).request? = some c := by simp [request?, queued, lined, hseen]
    have hnext : (d.queued ((c, false) :: q)).happen .control = d.takeControl.queued q := by
      rw [happen, takeControl, hrequest', takeControl, hrequest]
      exact control_lined { d with controls := d.controls.tail } (q.map (·.1)) c
    have hown : own q = d.takeControl.controls := by
      obtain ⟨result, heq⟩ := takeControl_of_request? hrequest
      rw [heq, hcontrols]
      rfl
    rw [turns, Device.through, hnext]
    exact ih hown (steady_happen hd .control)
  | @vain d q hs hs' hr h ih =>
    rw [turns, Device.through, happen, takeControl_of_none hr]
    exact ih hq hd
  | @lost d q hs hs' x hx hsame h ih =>
    have hevent : Turn.event? ⟨d.queued q, x⟩ = none := by cases x <;> first | rfl | cases hx
    rw [turns, Device.through, hsame, List.filterMap_cons, hevent]
    exact ih hq hd
  | @part d q hs hs' j k h ih =>
    have hnext : d.happen (.pass (j + k)) = (d.happen (.pass j)).happen (.pass k) := by simp [happen, Nat.add_assoc]
    have hsplit := ih hq hd
    rw [turns, Device.through, hnext]
    exact hsplit
  | @turn d q hs hs' id hroom h ih =>
    have hnext : (d.queued q).happen (.turn id) =
        (d.pollCall id).queued (q ++ ((d.pollCall id).controls.drop d.controls.length).map (·, false)) := by
      have hlined := pollCall_lined (d := d) (l := q.map Prod.fst) hroom id
      rw [happen, queued, hlined, queued, List.map_append, List.map_map]
      simp [Function.comp_def]
    obtain ⟨news, hnews⟩ := d.controls_pollCall id
    have hown : own (q ++ ((d.pollCall id).controls.drop d.controls.length).map (·, false)) = (d.pollCall id).controls := by
      rw [own_append, own_map_false, hq, ← hnews, List.drop_left]
    rw [turns, Device.through, hnext]
    exact ih hown (steady_happen hd (.turn id))
  | @asked d q hs hs' c h ih =>
    have hnext : (d.queued q).happen (.ask c) = (d.request c).queued (q ++ [(c, false)]) := by
      simp [happen, request, queued, lined]
    have hown : own (q ++ [(c, false)]) = (d.request c).controls := by rw [own_append, hq]; rfl
    rw [turns, Device.through, hnext]
    exact ih hown hd
  | @other d q hs hs' x hx h ih =>
    obtain ⟨hnext, hcontrols⟩ := happen_lined hx d (q.map (·.1))
    replace hnext : (d.queued q).happen x = (d.happen x).queued q := hnext
    have hevent : Turn.event? ⟨d.queued q, x⟩ = Turn.event? ⟨d, x⟩ := by cases x <;> rfl
    obtain ⟨hevents, hend⟩ := ih (hq.trans hcontrols.symm) (steady_happen hd x)
    rw [turns, turns, Device.through, hnext, List.filterMap_cons, List.filterMap_cons, hevent, hevents]
    exact ⟨rfl, hend⟩

def plain (l : List Control) : List (Control × Bool) := l.map (·, false)

theorem queued_plain (d : Device) : d.queued (plain d.controls) = d := by
  rw [queued, plain, List.map_map]
  simp [lined, Function.comp_def]

/-- Idle requests may be added at any moment. -/
theorem Padded.append (past : List Happening) {rest rest' : List Happening}
    (h : Padded (d.through past) (plain (d.through past).controls) rest rest') :
    Padded d (plain d.controls) (past ++ rest) (past ++ rest') := by
  induction past generalizing d with
  | nil => exact h
  | cons x past ih =>
    have hnext : Padded (d.happen x) (plain (d.happen x).controls) (past ++ rest) (past ++ rest') := ih h
    rw [List.cons_append, List.cons_append]
    by_cases hx : x.apart = true
    · rw [(happen_lined hx d []).2] at hnext
      exact .other hx hnext
    cases x with
    | control =>
      cases hr : d.request? with
      | none =>
        rw [happen, takeControl_of_none hr] at hnext
        exact .vain hr (.lost rfl (by rw [queued_plain, happen, takeControl_of_none hr]) hnext)
      | some c =>
        obtain ⟨hseen, hcontrols⟩ := of_request? hr
        obtain ⟨result, heq⟩ := takeControl_of_request? hr
        have htail : d.takeControl.controls = d.controls.tail := by rw [heq]
        rw [happen, htail] at hnext
        rw [hcontrols]
        exact .taken hseen hnext
    | turn id =>
      obtain ⟨news, hnews⟩ := d.controls_pollCall id
      refine .turn id (by rw [queued_plain]) ?_
      rw [happen, ← hnews, plain, List.map_append] at hnext
      rwa [← hnews, List.drop_left]
    | ask c =>
      rw [happen, request, plain, List.map_append] at hnext
      exact .asked c hnext
    | _ => exact absurd rfl hx

def spare (cs : List Control) : List Happening := cs.flatMap fun c => [.ask c, .control]

theorem padded_spare (hseen : d.edgeSeen = false) (hnone : d.controls = []) {cs : List Control}
    (hcs : ∀ c ∈ cs, d.engine.Ignores c) (rest : List Happening) : Padded d [] rest (spare cs ++ rest) := by
  induction cs with
  | nil =>
    have hrefl := Padded.append (d := d) rest (.done _ _)
    rwa [hnone, List.append_nil] at hrefl
  | cons c cs ih =>
    rw [List.forall_mem_cons] at hcs
    exact .extra c (.ignored hseen hcs.1 (ih hcs.2))

end Device
end HdmiCec
