import HdmiCec.Proofs.Engine.History
import HdmiCec.Proofs.Engine.Pending

/-! What becomes of the frames that an engine takes. Each turn takes a frame, ends one, gives one up
or leaves it as it is (`Turn.Fate`), so that a history accounts for every frame that was taken
(`frames_balance`). -/
namespace HdmiCec

def Engine.Call.message? : Engine.Call → Option Message
  | .submit m | .send m => some m
  | _ => none

namespace Engine

namespace Turn

def accepts (t : Turn) : Bool := t.call.message?.isSome && t.reply == .ok

def ends (t : Turn) : Bool :=
  t.reply == .completion (some .sendOk) || t.reply == .completion (some .sendFailed)

def drops (t : Turn) : Bool := t.call == .setEnabled false && t.before.isSending

def stirs (t : Turn) : Bool :=
  match t.call with
  | .startSend | .capture _ => true
  | .send _ => t.reply == .ok
  | _ => false

/-- The frame whose fate is open after a turn, if before it that was `w`. -/
def track (w : Option Message) (t : Turn) : Option Message :=
  if t.accepts then t.call.message? else if t.ends || t.drops then none else w

end Turn

/-- The frame that was taken last, unless it has ended since or was given up. -/
def pending (ts : List Turn) : Option Message := ts.foldl Turn.track none

def held (e : Engine) : Option Message := if e.isSending then some e.tx.message else none

variable {e d : Engine} {m : Message} {line : Reading} {t : Ticks}

theorem isSome_held (e : Engine) : e.held.isSome = e.isSending := by
  unfold held
  cases e.isSending <;> rfl

theorem held_of_same (h : d.tx.Same e.tx) : d.held = e.held := by
  rw [held, held, isSending_of_same h, Outgoing.message_congr h.length h.bits]

theorem held_of_not_sending (h : e.isSending = false) : e.held = none := by rw [held, h, if_neg Bool.false_ne_true]

theorem held_load (e : Engine) (hm : m.Legal) : (e.load m).held = some m := by
  rw [held, isSending_load hm, if_pos rfl, e.message_load hm]

theorem held_quit_finish (e : Engine) : ({ e with tx := e.tx.finish } : Engine).quit.held = none := by
  simp [held, quit, rest, isSending, Outgoing.isPending, Outgoing.rewind, Outgoing.finish]

inductive Turn.Fate (t : Turn) : Prop
  | taken {m : Message} : t.accepts = true → t.ends = false → t.drops = false → t.before.held = none →
      t.call.message? = some m → t.after.held = some m → t.Fate
  | ended : t.accepts = false → t.ends = true → t.drops = false → t.before.held.isSome = true →
      t.after.held = none → t.Fate
  | dropped : t.accepts = false → t.ends = false → t.drops = true → t.before.held.isSome = true →
      t.after.held = none → t.Fate
  | kept : t.accepts = false → t.ends = false → t.drops = false → t.after.held = t.before.held → t.Fate

/-- An edge ends none of the engine's own frames. -/
theorem outcome_onCapture_ne {c : Completion} (h : (e.onCapture t).outcome = some c) : ∃ m, c = .received m := by
  by_cases hs : e.state = .follower .ackLow
  · rw [outcome_onCapture_ackLow hs] at h
    split at h
    · exact ⟨_, (Option.some.inj h).symm⟩
    · cases h
  · rw [outcome_onCapture hs] at h
    cases h

theorem Turn.fate_capture (e : Engine) (t : Ticks) : Turn.Fate ⟨e, .capture t⟩ := by
  refine .kept rfl ?_ rfl (held_of_same (e.onCapture_same t))
  show (Reply.completion (e.onCapture t).outcome == _ || Reply.completion (e.onCapture t).outcome == _) = false
  cases ho : (e.onCapture t).outcome with
  | none => rfl
  | some c =>
    obtain ⟨m, rfl⟩ := outcome_onCapture_ne ho
    rfl

theorem Turn.ends_timeout (e : Engine) (line : Reading) :
    Turn.ends ⟨e, .timeout line⟩ = (e.verdict == some .sendOk || e.verdict == some .sendFailed) := by
  show (Reply.completion (e.onTimeout line).outcome == _ || Reply.completion (e.onTimeout line).outcome == _) = _
  rw [outcome_onTimeout]
  cases e.verdict with
  | none => rfl
  | some c => cases c <;> rfl

theorem verdict_of_ne_ackVerify (h : e.state ≠ .initiator .ackVerify) :
    (e.verdict == some .sendOk || e.verdict == some .sendFailed) = false := by
  unfold verdict
  split
  · next hs => exact absurd hs h
  · split <;> rfl
  · rfl

theorem Turn.fate_timeout (h : e.Steady) (line : Reading) : Turn.Fate ⟨e, .timeout line⟩ := by
  by_cases hs : e.state = .initiator .ackVerify
  · have hp : e.held.isSome = true := (isSome_held e).trans (h.busy _ hs).1
    have hends := Turn.ends_timeout e line
    simp only [verdict, hs] at hends
    cases ha : e.tx.acked with
    | true =>
      cases hl : e.tx.isLast with
      | true =>
        refine .ended rfl (by rw [hends, ha, hl]; rfl) rfl hp ?_
        show (e.onTimeout line).engine.held = none
        rw [onTimeout_sent hs ha hl, held_quit_finish]
      | false =>
        refine .kept rfl (by rw [hends, ha, hl]; rfl) rfl ?_
        show (e.onTimeout line).engine.held = e.held
        rw [onTimeout_acked hs ha hl]
        rfl
    | false =>
      by_cases hr : e.tx.resends < Outgoing.maxResends
      · refine .kept rfl (by rw [hends, ha, if_pos hr]; rfl) rfl ?_
        show (e.onTimeout line).engine.held = e.held
        rw [onTimeout_resend hs ha hr]
        rfl
      · refine .ended rfl (by rw [hends, ha, if_neg hr]; rfl) rfl hp ?_
        show (e.onTimeout line).engine.held = none
        rw [onTimeout_failed hs ha hr, held_quit_finish]
  · refine .kept rfl ?_ rfl (held_of_same (onTimeout_same hs line))
    rw [Turn.ends_timeout, verdict_of_ne_ackVerify hs]

theorem Turn.fate_setEnabled (h : e.Steady) (on : Bool) : Turn.Fate ⟨e, .setEnabled on⟩ := by
  by_cases hsame : on = e.isEnabled
  · refine .kept rfl rfl ?_ (by simp only [Turn.after, Engine.after, answer, setEnabled_same hsame])
    cases on with
    | true => rfl
    | false => exact h.off (by simpa [isEnabled] using hsame)
  cases on with
  | true =>
    have hd : e.state = .disabled := by simpa [isEnabled] using hsame
    refine .kept rfl rfl rfl ?_
    show (e.setEnabled true).engine.held = e.held
    rw [setEnabled_on hd]
    exact held_of_same (same_quit e)
  | false =>
    have hd : e.state ≠ .disabled := by simpa [isEnabled] using hsame
    have hgone : Turn.after ⟨e, .setEnabled false⟩ = e.switchedOff := setEnabled_off hd
    cases hp : e.isSending with
    | true => exact .dropped rfl rfl hp ((isSome_held e).trans hp) (by rw [hgone]; rfl)
    | false => exact .kept rfl rfl hp (by rw [hgone, held_of_not_sending rfl, held_of_not_sending hp])

theorem Turn.fate_submit (e : Engine) (m : Message) : Turn.Fate ⟨e, .submit m⟩ := by
  by_cases ha : e.Accepts m
  · have hr : Turn.reply ⟨e, .submit m⟩ = .ok := by rw [Turn.reply, answer_submit ha]
    refine .taken (m := m) ?_ ?_ rfl ?_ rfl ?_
    · rw [Turn.accepts, hr]; rfl
    · rw [Turn.ends, hr]; rfl
    · exact held_of_not_sending ha.2.2
    · rw [Turn.after, after_submit ha, held_load e ha.2.1]
  · obtain ⟨x, hx⟩ := answer_submit_refused ha
    have hr : Turn.reply ⟨e, .submit m⟩ = .refused x := by rw [Turn.reply, hx]
    refine .kept ?_ ?_ rfl (by rw [Turn.after, after_submit_refused ha])
    · rw [Turn.accepts, hr]; rfl
    · rw [Turn.ends, hr]; rfl

theorem Turn.fate_send (e : Engine) (m : Message) : Turn.Fate ⟨e, .send m⟩ := by
  by_cases ha : e.Accepts m
  · have hr : Turn.reply ⟨e, .send m⟩ = .ok := by rw [Turn.reply, answer_send ha]
    refine .taken (m := m) ?_ ?_ rfl ?_ rfl ?_
    · rw [Turn.accepts, hr]; rfl
    · rw [Turn.ends, hr]; rfl
    · exact held_of_not_sending ha.2.2
    · rw [Turn.after, after_send ha, ← e.held_load ha.2.1]
      split <;> rfl
  · obtain ⟨x, hx⟩ := answer_send_refused ha
    have hr : Turn.reply ⟨e, .send m⟩ = .refused x := by rw [Turn.reply, hx]
    refine .kept ?_ ?_ rfl (by rw [Turn.after, after_send_refused ha])
    · rw [Turn.accepts, hr]; rfl
    · rw [Turn.ends, hr]; rfl

/-- Every turn of a steady engine takes a frame, ends one, gives one up or leaves it alone. -/
theorem Turn.fate (h : e.Steady) (c : Call) : Turn.Fate ⟨e, c⟩ := by
  cases c with
  | setAddress a =>
    have hr : Turn.ends ⟨e, .setAddress a⟩ = false := by
      simp only [Turn.ends, Turn.reply, answer]
      cases e.setAddress a <;> rfl
    refine .kept rfl hr rfl ?_
    rw [Turn.after, after_setAddress]
    split <;> rfl
  | setEnabled on => exact Turn.fate_setEnabled h on
  | submit m => exact Turn.fate_submit e m
  | startSend =>
    refine .kept rfl rfl rfl ?_
    rw [Turn.after, after_startSend]
    split <;> rfl
  | send m => exact Turn.fate_send e m
  | capture t => exact Turn.fate_capture e t
  | timeout line => exact Turn.fate_timeout h line

theorem track_held (h : e.Steady) (c : Call) : Turn.track e.held ⟨e, c⟩ = (e.after c).held := by
  cases Turn.fate h c with
  | taken ha _ _ _ hm hh => rw [Turn.track, if_pos ha, hm, ← hh]; rfl
  | ended ha he _ _ hh => rw [Turn.track, ha, he]; exact hh.symm
  | dropped ha he hd _ hh => rw [Turn.track, ha, he, hd]; exact hh.symm
  | kept ha he hd hh => rw [Turn.track, ha, he, hd]; exact hh.symm

/-- What a history says of the pending frame is what the engine holds. -/
theorem foldl_track (h : e.Steady) (calls : List Call) :
    (e.turns calls).foldl Turn.track e.held = (e.run calls).held := by
  induction calls generalizing e with
  | nil => rfl
  | cons c rest ih =>
    rw [turns, List.foldl_cons, track_held h, ih (h.after c)]
    rfl

theorem pending_turns (calls : List Call) :
    pending (({} : Engine).turns calls) = (({} : Engine).run calls).held := foldl_track steady_new calls

theorem count_accepts (h : e.Steady) (calls : List Call) :
    (e.turns calls).countP Turn.accepts + e.isSending.toNat =
      (e.turns calls).countP Turn.ends + (e.turns calls).countP Turn.drops + (e.run calls).isSending.toNat := by
  induction calls generalizing e with
  | nil => simp [turns, run]
  | cons c rest ih =>
    have ih := ih (h.after c)
    have hone : (Turn.accepts ⟨e, c⟩).toNat + e.isSending.toNat =
        (Turn.ends ⟨e, c⟩).toNat + (Turn.drops ⟨e, c⟩).toNat + (e.after c).isSending.toNat := by
      have hb := isSome_held e
      have ha := isSome_held (e.after c)
      cases Turn.fate h c with
      | taken h1 h2 h3 h4 _ h6 =>
        rw [show (e.after c).held = _ from h6] at ha
        rw [show e.held = _ from h4] at hb
        rw [h1, h2, h3, ← ha, ← hb]
        rfl
      | ended h1 h2 h3 h4 h5 =>
        rw [show (e.after c).held = _ from h5] at ha
        rw [show e.held.isSome = _ from h4] at hb
        rw [h1, h2, h3, ← ha, ← hb]
        rfl
      | dropped h1 h2 h3 h4 h5 =>
        rw [show (e.after c).held = _ from h5] at ha
        rw [show e.held.isSome = _ from h4] at hb
        rw [h1, h2, h3, ← ha, ← hb]
        rfl
      | kept h1 h2 h3 h4 =>
        rw [h1, h2, h3, ← ha, ← hb, show (e.after c).held = _ from h4]
        rfl
    simp only [turns, run, List.countP_cons]
    have split : ∀ b : Bool, (if b = true then 1 else 0) = b.toNat := by decide
    rw [split, split, split]
    omega

/-- An idle engine with a frame had it before, undisturbed, or was given it just now. -/
theorem idle_sending_cases (c : Call) (hi : (e.after c).state = .idle)
    (hp : (e.after c).isSending = true) :
    e.state = .idle ∧ e.isSending = true ∧ Turn.stirs ⟨e, c⟩ = false ∨
      ∃ m, c = .submit m ∧ e.state = .idle ∧ e.Accepts m := by
  have busy : ∀ d : Engine, d.quit.state = .idle → d.quit.isSending = true → False := by
    intro d hd hs
    rcases d.quit_state with ⟨-, hq⟩ | ⟨hq, -⟩
    · rw [show d.quit.isSending = d.isSending from rfl, hq] at hs
      cases hs
    · rw [hq] at hd
      cases hd
  have hx := e.answers c
  simp only [Engine.after, Turn.stirs, Turn.reply] at hi hp ⊢
  generalize hy : e.answer c = x at hx hi hp ⊢
  cases hx with
  | refuses =>
    refine .inl ⟨hi, hp, ?_⟩
    cases c with
    | startSend | capture t => cases hy
    | _ => rfl
  | renamed | same => exact .inl ⟨hi, hp, rfl⟩
  | on _ hr =>
    simp only [hr] at hi hp
    exact (busy e hi hp).elim
  | off _ hr | contends _ _ hr | sends _ _ hr =>
    simp only [hr] at hi
    cases hi
  | @takes m ha => exact .inr ⟨m, rfl, (e.load_state m).symm.trans hi, ha⟩
  | stays hn => exact absurd ⟨hi, hp⟩ hn
  | @defers m _ hn => exact absurd ((e.load_state m).symm.trans hi) hn
  | @edge t =>
    have hx := e.onCapture_hears t
    by_cases hs : e.state = .idle
    · rw [onCapture_idle hs] at hi
      cases hi
    generalize (e.onCapture t).engine = d at hx hi hp
    cases hx with
    | same => exact absurd hi hs
    | quit => exact (busy e hi hp).elim
    | opens => cases hi
    | goes => cases hi
  | @deadline line =>
    have hx := e.onTimeout_lapses line
    generalize (e.onTimeout line).engine = d at hx hi hp
    cases hx with
    | same => exact .inl ⟨hi, hp, rfl⟩
    | quit => exact (busy e hi hp).elim
    | ended => exact (busy _ hi hp).elim
    | again => cases hi
    | goes => cases hi
    | answers => cases hi

/-- A frame waits in an idle engine only as long as it was submitted there and nothing stirred the
engine since. -/
theorem idle_sending_history {calls : List Call} (hi : (e.run calls).state = .idle)
    (hp : (e.run calls).isSending = true) :
    (e.state = .idle ∧ e.isSending = true ∧ ∀ t ∈ e.turns calls, t.stirs = false) ∨
      ∃ a m b, calls = a ++ .submit m :: b ∧ (e.run a).state = .idle ∧ (e.run a).Accepts m ∧
        ∀ t ∈ ((e.run a).after (.submit m)).turns b, t.stirs = false := by
  induction calls generalizing e with
  | nil => exact .inl ⟨hi, hp, by simp [turns]⟩
  | cons c rest ih =>
    rcases ih hi hp with ⟨hi', hp', hq⟩ | ⟨a, m, b, hcalls, hrest⟩
    · rcases idle_sending_cases c hi' hp' with ⟨hi0, hp0, hc⟩ | ⟨m, rfl, hi0, ha⟩
      · refine .inl ⟨hi0, hp0, fun t ht => ?_⟩
        rcases List.mem_cons.1 ht with rfl | ht
        · exact hc
        · exact hq t ht
      · exact .inr ⟨[], m, rest, rfl, hi0, ha, hq⟩
    · exact .inr ⟨c :: a, m, b, congrArg (c :: ·) hcalls, hrest⟩

/-- A frame that waits for another one to end gets its turn as soon as the engine no longer follows. -/
theorem deferred_turn (c : Call) {s : Follower} (hs : e.state = .follower s) (hp : e.isSending = true) :
    (∃ u, (e.after c).state = .follower u) ∨ (e.after c).state = .initiator .freeTime ∨ c = .setEnabled false := by
  have next : e.quit.state = .initiator .freeTime := by simp [quit, hp]
  have refused : ∀ m, ¬ e.Accepts m := fun m ha => by simp [ha.2.2] at hp
  have hx := e.answers c
  unfold Engine.after
  generalize e.answer c = x at hx
  cases hx with
  | refuses | renamed | same | stays => exact .inl ⟨s, hs⟩
  | on hd =>
    rw [hs] at hd
    cases hd
  | off => exact .inr (.inr rfl)
  | takes ha | sends ha | defers ha => exact absurd ha (refused _)
  | contends hi =>
    rw [hs] at hi
    cases hi
  | @edge t =>
    have hx := e.onCapture_hears t
    generalize (e.onCapture t).engine = d at hx
    cases hx with
    | same => exact .inl ⟨s, hs⟩
    | quit => exact .inr (.inl next)
    | opens => exact .inl ⟨_, rfl⟩
    | goes => exact .inl ⟨_, rfl⟩
  | @deadline line =>
    have hx := e.onTimeout_lapses line
    generalize (e.onTimeout line).engine = d at hx
    cases hx with
    | same h => rw [hs] at h; rcases h with h | h <;> cases h
    | quit => exact .inr (.inl next)
    | ended h => rw [hs] at h; cases h
    | again h => rw [hs] at h; cases h
    | goes h => rw [hs] at h; cases h
    | answers => exact .inl ⟨_, rfl⟩

/-- A call that is refused changes nothing and does nothing. -/
theorem Turn.refused {t : Turn} {x : Refusal} (h : t.reply = .refused x) : t.did = { engine := t.before } := by
  obtain ⟨e, c⟩ := t
  have hx := e.answers c
  simp only [Turn.reply, Turn.did] at h ⊢
  generalize e.answer c = y at h hx
  cases hx with
  | refuses => rfl
  | _ => cases h

/-- Whatever is asked of an engine: each frame that was taken has ended once, was given up when the
engine was switched off, or is the one that is open now. A refused call does nothing. Whoever speaks
has a frame. An idle engine has one only if it was submitted there and nothing stirred the engine
since, and one that waits for another frame to end gets its turn after it. -/
theorem frames_balance (calls : List Call) :
    let e := ({} : Engine).run calls
    let ts := ({} : Engine).turns calls
    ts.countP Turn.accepts = ts.countP Turn.ends + ts.countP Turn.drops + (if e.isSending then 1 else 0) ∧
    (∀ t ∈ ts, ∀ x, t.reply = .refused x → t.did = { engine := t.before }) ∧
    (∀ s, e.state = .initiator s → e.isSending = true) ∧
    (e.state = .idle → e.isSending = true → ∃ a m b, calls = a ++ .submit m :: b ∧
      (({} : Engine).run a).state = .idle ∧ (({} : Engine).run a).Accepts m ∧
      ∀ t ∈ (({} : Engine).run (a ++ [.submit m])).turns b, t.stirs = false) ∧
    (∀ t ∈ ts, ∀ s, t.before.state = .follower s → t.before.isSending = true →
      (∃ u, t.after.state = .follower u) ∨ t.after.state = .initiator .freeTime ∨ t.call = .setEnabled false) := by
  intro e ts
  have hs := steady_run calls
  refine ⟨?_, fun t _ x hx => Turn.refused hx, fun s hst => (hs.busy s hst).1, fun hi hp => ?_,
    fun t _ s hst hp => deferred_turn t.call hst hp⟩
  · have hcount := count_accepts steady_new calls
    have hnone : ({} : Engine).isSending = false := rfl
    rw [hnone] at hcount
    show _ = _ + (if e.isSending = true then 1 else 0)
    cases hp : e.isSending <;> simpa [ts, e, hp] using hcount
  · rcases idle_sending_history hi hp with ⟨h0, -, -⟩ | ⟨a, m, b, hcalls, ha, hacc, hq⟩
    · cases h0
    · refine ⟨a, m, b, hcalls, ha, hacc, ?_⟩
      rw [run_append]
      exact hq

/-- A frame that was deferred is lost when the engine is switched off; the next one waits. -/
theorem frames_balance_after_loss :
    let calls : List Call := [.setEnabled true, .submit [4], .submit [5], .capture 0, .setEnabled false,
      .setEnabled true, .submit [4, 54]]
    let e := ({} : Engine).run calls
    let ts := ({} : Engine).turns calls
    ts.countP Turn.accepts = 2 ∧ ts.countP Turn.accepts = ts.countP Turn.ends + ts.countP Turn.drops + 1 ∧
      e.state = .idle ∧ e.isSending = true ∧ ∃ a m b, calls = a ++ .submit m :: b ∧
      (({} : Engine).run a).state = .idle ∧ (({} : Engine).run a).Accepts m ∧
      ∀ t ∈ (({} : Engine).run (a ++ [.submit m])).turns b, t.stirs = false := by
  intro calls e ts
  have htaken : ts.countP Turn.accepts = 2 := by decide +kernel
  have hi : e.state = .idle := by decide +kernel
  have hp : e.isSending = true := by decide +kernel
  obtain ⟨hcount, -, -, hwait, -⟩ := frames_balance calls
  exact ⟨htaken, by rw [hcount, if_pos hp], hi, hp, hwait hi hp⟩

end Engine
end HdmiCec
