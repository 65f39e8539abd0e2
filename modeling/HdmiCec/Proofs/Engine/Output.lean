import HdmiCec.Proofs.Engine.History

/-! The level that an engine drives. It is read off what the engine does, and after every history it is
low where the state says so and nowhere else (`output_low_iff`): most states of a follower write no
level, and keep what the state before them left. -/
namespace HdmiCec

def LineAction.drive (l : Level) : LineAction → Level
  | .set level => level
  | .arm _ | .stop => l

/-- The middle of an ACK slot is no edge. -/
theorem Follower.not_leads_ackVerify (s : Follower) : s.leads .ackVerify = false := by
  cases s with
  | high f => cases f <;> rfl
  | _ => rfl

namespace Engine

def Turn.drive (l : Level) (t : Turn) : Level := t.did.actions.foldl LineAction.drive l

/-- The level that an engine drives after these turns, if at first it let go of the line. -/
def output (ts : List Turn) : Level := ts.foldl Turn.drive .high

/-- Whether the ACK slot that was entered last belongs to a frame for the address of that moment. -/
def Turn.markSlot (own : Bool) (t : Turn) : Bool :=
  if t.after.state = .follower .ackLow ∧ t.before.state ≠ .follower .ackLow then
    t.after.rx.destination == t.after.address
  else own

def ownSlot (ts : List Turn) : Bool := ts.foldl Turn.markSlot false

def drives? (e : Engine) : Option Level :=
  match e.state with
  | .disabled | .idle | .follower .ackFinish => some .high
  | .initiator .ackVerify => none
  | .initiator s => some (.ofPulls s.isLow)
  | .follower .ackLow => if e.rx.destination = e.address then some .low else none
  | .follower _ => none

variable {e d : Engine} {l : Level} {own : Bool}

theorem level_entry_eq (e : Engine) (line : Reading) :
    (e.entry e.state line).level = (e.entry e.state line).engine.drives? := by
  cases hs : e.state with
  | disabled => simp [entry, drives?, hs]
  | idle => simp [entry, drives?, hs]
  | initiator s =>
    cases s with
    | low f => cases f <;> simp [entry, initiatorEntry, drives?, hs, Initiator.isLow, Level.ofPulls]
    | high f => cases f <;> simp [entry, initiatorEntry, drives?, hs, Initiator.isLow, Level.ofPulls]
    | _ => simp [entry, initiatorEntry, drives?, hs, Initiator.isLow, Level.ofPulls]
  | follower s =>
    cases s with
    | ackFinish =>
      by_cases hl : e.rx.isLast <;> by_cases hh : e.hears e.rx.destination <;>
        simp [entry, followerEntry, drives?, hs, hl, hh]
    | ackLow =>
      by_cases ha : e.rx.destination = e.address <;> simp [entry, followerEntry, drives?, hs, ha]
    | _ => simp [entry, followerEntry, drives?, hs]

/-- What entering a state does to the line can be read off the engine afterwards. -/
theorem drive_enter (e : Engine) (s : State) (line : Reading) (l : Level) :
    (e.enter s line).actions.foldl LineAction.drive l = (e.enter s line).engine.drives?.getD l := by
  simp only [enter]
  generalize (if s = .idle then e.rest else e) = e'
  have hlevel := level_entry_eq { e' with state := e.target s } line
  simp only at hlevel
  rw [← hlevel, Entry.actions, List.foldl_append]
  generalize Engine.entry _ _ _ = x
  cases x.level <;> cases x.wait <;> rfl

theorem drive_onTimeout {line : Reading} {m : Move} (hm : e.deadlineMove? = some m) :
    (e.onTimeout line).actions.foldl LineAction.drive l = (e.onTimeout line).engine.drives?.getD l := by
  simp only [onTimeout, hm, perform]
  exact drive_enter m.engine m.next line l

theorem drive_onCapture {t : Ticks} {m : Move} (hm : e.edgeMove? t = some m) :
    (e.onCapture t).actions.foldl LineAction.drive l = (e.onCapture t).engine.drives?.getD l := by
  simp only [onCapture, hm, perform]
  exact drive_enter m.engine m.next none l

theorem drives?_quit (e : Engine) : e.quit.drives? = some .high := by
  rcases e.quit_state with ⟨hq, -⟩ | ⟨hq, -⟩
  · rw [drives?, hq]
  · rw [drives?, hq]
    rfl

theorem not_mayPull_of_drives?_high (h : d.drives? = some .high) : d.state.mayPull = false := by
  cases hs : d.state with
  | follower s =>
    cases s with
    | ackLow =>
      simp only [drives?, hs] at h
      split at h <;> cases h
    | ackVerify => simp [drives?, hs] at h
    | _ => rfl
  | initiator s =>
    cases s with
    | ackVerify => rfl
    | _ => simp_all [drives?, Level.ofPulls, State.mayPull, Initiator.isLow]
  | _ => rfl

theorem drives?_low_iff (h : d.state ≠ .follower .ackVerify) : d.drives?.getD .high = .low ↔
    d.state.drives = true ∨ d.state.answers = true ∧ d.rx.destination = d.address := by
  cases hs : d.state with
  | follower s =>
    cases s with
    | ackLow =>
      by_cases ha : d.rx.destination = d.address <;>
        simp [drives?, hs, ha, State.drives, State.answers, Follower.answers]
    | ackVerify => exact absurd hs h
    | _ => simp [drives?, hs, State.drives, State.answers, Follower.answers]
  | initiator s => cases s <;> simp [drives?, hs, State.drives, State.answers, Initiator.isLow, Level.ofPulls]
  | _ => simp [drives?, hs, State.drives, State.answers]

theorem mayPull_eq (s : State) : s.mayPull = (s.drives || s.answers) := by
  cases s with
  | initiator s => exact (Bool.or_false _).symm
  | _ => rfl

/-- A deadline takes a pulling engine to where it lets go, save from one half of an ACK slot to the other. -/
theorem onTimeout_lets_go (line : Reading) (hp : e.state.mayPull = true) (ha : e.state ≠ .follower .ackLow) :
    (e.onTimeout line).engine.drives? = some .high := by
  have hx := e.onTimeout_lapses line
  generalize (e.onTimeout line).engine = d at hx
  cases hx with
  | same hs => rcases hs with hs | hs <;> rw [hs] at hp <;> cases hp
  | quit | ended => exact drives?_quit _
  | again => rfl
  | @goes s u _ hs hl _ =>
    rw [hs] at hp
    cases s with
    | startLow | low f | ackLow => cases u <;> first | rfl | cases hl
    | _ => cases hp
  | answers hs hl =>
    rcases hl with ⟨rfl, -⟩ | ⟨-, rfl, -⟩
    · exact absurd hs ha
    · rfl

theorem onTimeout_ne_ackVerify (line : Reading) (ha : e.state ≠ .follower .ackLow) :
    (e.onTimeout line).engine.state ≠ .follower .ackVerify := by
  have hx := e.onTimeout_lapses line
  generalize (e.onTimeout line).engine = d at hx
  cases hx with
  | same hs => rcases hs with hs | hs <;> simp [hs]
  | quit | ended => exact ne_follower_quit _ _
  | again | goes => simp
  | answers hs hl =>
    rcases hl with ⟨rfl, -⟩ | ⟨-, rfl, -⟩
    · exact absurd hs ha
    · simp

theorem onCapture_lets_go {t : Ticks} {m : Move} (hm : e.edgeMove? t = some m) (hp : e.state.mayPull = true) :
    (e.onCapture t).engine.drives? = some .high := by
  cases hs : e.state with
  | follower s =>
    cases s with
    | ackLow => rw [onCapture_ackLow hs]; rfl
    | ackVerify => simp [edgeMove?, hs, Incoming.onEdge] at hm
    | _ => rw [hs] at hp; cases hp
  | initiator s =>
    cases s with
    | startLow | low | ackLow => simp [edgeMove?, hs] at hm
    | _ => rw [hs] at hp; cases hp
  | _ => rw [hs] at hp; cases hp

theorem onCapture_ne_ackVerify {t : Ticks} {m : Move} (hm : e.edgeMove? t = some m) :
    (e.onCapture t).engine.state ≠ .follower .ackVerify := by
  have hx := e.onCapture_hears t
  generalize (e.onCapture t).engine = d at hx
  cases hx with
  | same =>
    intro hs
    simp [edgeMove?, hs, Incoming.onEdge] at hm
  | quit => exact ne_follower_quit _ _
  | opens => simp
  | goes _ hl =>
    intro hu
    cases hu
    exact absurd hl (Bool.eq_false_iff.1 (Follower.not_leads_ackVerify _))

/-- What a call does to the driven level: nothing, what the entered state says, or nothing at the
middle of an ACK slot. An engine that pulls the line lets go of it on entering any other state. -/
inductive Drives (e : Engine) (l : Level) : Engine → Level → Prop
  | rests {d : Engine} : d.state = e.state → d.rx = e.rx → Drives e l d l
  | enters {d : Engine} : (e.state.mayPull = true → d.drives? = some .high) → d.state ≠ .follower .ackVerify →
      Drives e l d (d.drives?.getD l)
  | samples {d : Engine} : e.state = .follower .ackLow → d.state = .follower .ackVerify →
      d.rx.destination = e.rx.destination → Drives e l d l

theorem Drives.congr {k : Engine} {l' : Level} (h : k.Drives l d l') (hs : k.state = e.state) (hr : k.rx = e.rx) :
    e.Drives l d l' := by
  cases h with
  | rests hd hdr => exact .rests (hd.trans hs) (hdr.trans hr)
  | enters hpull hne => exact .enters (by rw [← hs]; exact hpull) hne
  | samples hk hd hdest => exact .samples (hs ▸ hk) hd (by rw [hdest, Incoming.destination, hr]; rfl)

theorem drives_startSend (e : Engine) (l : Level) :
    e.Drives l e.startSend.engine (e.startSend.actions.foldl LineAction.drive l) := by
  by_cases hi : e.state = .idle ∧ e.isSending = true
  · rw [startSend_of_idle hi.1 hi.2, drive_enter]
    refine .enters (fun hm => ?_) ?_
    · rw [hi.1] at hm; cases hm
    · rw [state_enter, target_of_ne_idle _ (by simp)]; simp
  · rw [startSend_of_not hi]
    exact .rests rfl rfl

theorem drives_onTimeout (e : Engine) (l : Level) (line : Reading) :
    e.Drives l (e.onTimeout line).engine ((e.onTimeout line).actions.foldl LineAction.drive l) := by
  cases hm : e.deadlineMove? with
  | none =>
    simp only [onTimeout, hm]
    exact .rests rfl rfl
  | some m =>
    by_cases ha : e.state = .follower .ackLow
    · rw [drive_onTimeout hm, onTimeout_follower_ackLow ha]
      exact .samples ha rfl rfl
    · rw [drive_onTimeout hm]
      exact .enters (fun hp => onTimeout_lets_go line hp ha) (onTimeout_ne_ackVerify line ha)

theorem drives_onCapture (e : Engine) (l : Level) (t : Ticks) :
    e.Drives l (e.onCapture t).engine ((e.onCapture t).actions.foldl LineAction.drive l) := by
  cases hm : e.edgeMove? t with
  | none =>
    simp only [onCapture, hm]
    exact .rests rfl rfl
  | some m =>
    rw [drive_onCapture hm]
    exact .enters (onCapture_lets_go hm) (onCapture_ne_ackVerify hm)

theorem drives_setEnabled (e : Engine) (l : Level) (on : Bool) :
    e.Drives l (e.setEnabled on).engine ((e.setEnabled on).actions.foldl LineAction.drive l) := by
  by_cases hsame : on = e.isEnabled
  · rw [setEnabled_same hsame]
    exact .rests rfl rfl
  cases on with
  | true =>
    have hd : e.state = .disabled := by simpa [isEnabled] using hsame
    have hon : (e.setEnabled true).engine = e.quit := setEnabled_on hd
    have hdrive : (e.setEnabled true).actions.foldl LineAction.drive l = (e.setEnabled true).engine.drives?.getD l := by
      simp only [setEnabled, hsame, if_false, if_true]
      exact drive_enter e .idle none l
    rw [hdrive, hon]
    exact .enters (fun _ => drives?_quit e) (ne_follower_quit e _)
  | false =>
    have hd : e.state ≠ .disabled := by simpa [isEnabled] using hsame
    have hoff : (e.setEnabled false).engine = e.switchedOff := setEnabled_off hd
    have hdrive : (e.setEnabled false).actions.foldl LineAction.drive l =
        (e.setEnabled false).engine.drives?.getD l := by
      simp only [setEnabled, hsame, if_false, Bool.false_eq_true, List.foldl_cons, LineAction.drive]
      exact drive_enter e .disabled none l
    rw [hdrive, hoff]
    exact .enters (fun _ => rfl) (by simp [switchedOff])

theorem drives_turn (e : Engine) (l : Level) (c : Call) : e.Drives l (e.after c) (Turn.drive l ⟨e, c⟩) := by
  cases c with
  | setAddress a =>
    by_cases ha : a.Assignable
    · simp only [after, Turn.drive, Turn.did, answer, Engine.setAddress, if_pos ha]
      exact .rests rfl rfl
    · simp only [after, Turn.drive, Turn.did, answer, Engine.setAddress, if_neg ha]
      exact .rests rfl rfl
  | setEnabled on => exact drives_setEnabled e l on
  | submit m =>
    by_cases ha : e.Accepts m
    · simp only [after, Turn.drive, Turn.did, answer_submit ha]
      exact .rests (e.load_state m) (e.load_rx m)
    · obtain ⟨x, hx⟩ := answer_submit_refused ha
      simp only [after, Turn.drive, Turn.did, hx]
      exact .rests rfl rfl
  | startSend => exact drives_startSend e l
  | send m =>
    by_cases ha : e.Accepts m
    · simp only [after, Turn.drive, Turn.did, answer_send ha]
      exact (drives_startSend (e.load m) l).congr (e.load_state m) (e.load_rx m)
    · obtain ⟨x, hx⟩ := answer_send_refused ha
      simp only [after, Turn.drive, Turn.did, hx]
      exact .rests rfl rfl
  | capture t => exact drives_onCapture e l t
  | timeout line => exact drives_onTimeout e l line

/-- The driven level goes with the state: it is low where an initiator pulls, and in the ACK slot of a
frame for this device alone. -/
structure Shows (e : Engine) (l : Level) (own : Bool) : Prop where
  low_iff : l = .low ↔ e.state.drives = true ∨ e.state.answers = true ∧ own = true
  meant : e.state.answers = true → own = true → e.rx.destination ≠ .broadcast
  address : e.address ≠ .broadcast

/-- By what the call does to the level. A state that lets go of the line need not know what was driven;
one that writes no level was entered from where the line was free. -/
theorem Shows.step {l' : Level} (h : e.Shows l own) (hx : e.Drives l d l') (ha : d.address ≠ .broadcast) :
    d.Shows l' (if d.state = .follower .ackLow ∧ e.state ≠ .follower .ackLow then
      d.rx.destination == d.address else own) := by
  cases hx with
  | rests hs hr =>
    rw [if_neg (by rw [hs]; exact fun hn => hn.2 hn.1)]
    exact ⟨by rw [hs]; exact h.low_iff, by rw [hs, Incoming.destination, hr]; exact h.meant, ha⟩
  | enters hpull hne =>
    by_cases hp : e.state.mayPull = true
    · have hhigh := hpull hp
      have hfree := not_mayPull_of_drives?_high hhigh
      rw [mayPull_eq, Bool.or_eq_false_iff] at hfree
      rw [hhigh]
      exact ⟨by simp [hfree.1, hfree.2], by simp [hfree.2], ha⟩
    · have hfree := Bool.eq_false_iff.2 hp
      rw [mayPull_eq, Bool.or_eq_false_iff] at hfree
      have hl : l = .high := by
        cases l with
        | high => rfl
        | low => simpa [hfree.1, hfree.2] using h.low_iff.1 rfl
      have hout : e.state ≠ .follower .ackLow := fun hs => by rw [hs] at hp; exact hp rfl
      have hslot : d.state.answers = true ↔ d.state = .follower .ackLow := by
        refine ⟨fun hans => ?_, fun hs => by rw [hs]; rfl⟩
        rcases State.answers_cases hans with hs | hs
        · exact hs
        · exact absurd hs hne
      rw [hl]
      by_cases hs : d.state = .follower .ackLow
      · rw [if_pos ⟨hs, hout⟩]
        refine ⟨?_, fun _ hown => ?_, ha⟩
        · rw [drives?_low_iff hne, beq_iff_eq]
        · rw [beq_iff_eq.1 hown]
          exact ha
      · rw [if_neg fun hn => hs hn.1]
        refine ⟨?_, fun hans => absurd (hslot.1 hans) hs, ha⟩
        rw [drives?_low_iff hne]
        simp only [Bool.eq_false_iff.2 (mt hslot.1 hs), Bool.false_eq_true, false_and]
  | samples hs hd hdest =>
    rw [if_neg fun hn => hn.2 hs]
    refine ⟨?_, fun _ hown => ?_, ha⟩
    · rw [h.low_iff, hs, hd]
      rfl
    · rw [hdest]
      exact h.meant (by rw [hs]; rfl) hown

theorem address_contend (e : Engine) : e.contend.address = e.address := by rw [contend]

theorem address_after (h : e.address ≠ .broadcast) (c : Call) : (e.after c).address ≠ .broadcast := by
  cases c with
  | setAddress a =>
    rw [after_setAddress]
    split
    · next hv => exact hv.ne_broadcast
    · exact h
  | setEnabled on =>
    have hk := (e.setEnabled_keeps on).2
    exact fun hb => h (hk.symm.trans hb)
  | submit m =>
    by_cases ha : e.Accepts m
    · rw [after_submit ha, load_address]
      exact h
    · rw [after_submit_refused ha]
      exact h
  | startSend =>
    rw [after_startSend]
    split
    · exact h
    · exact h
  | send m =>
    by_cases ha : e.Accepts m
    · have hload : (e.load m).address ≠ .broadcast := by
        rw [load_address]
        exact h
      rw [after_send ha]
      split
      · rw [address_contend]
        exact hload
      · exact hload
    · rw [after_send_refused ha]
      exact h
  | capture t => exact fun hb => h ((e.address_onCapture t).symm.trans hb)
  | timeout line => exact fun hb => h ((e.address_onTimeout line).symm.trans hb)

theorem shows_run (h : e.Shows l own) (calls : List Call) :
    (e.run calls).Shows ((e.turns calls).foldl Turn.drive l) ((e.turns calls).foldl Turn.markSlot own) := by
  induction calls generalizing e l own with
  | nil => exact h
  | cons c rest ih => exact ih (h.step (drives_turn e l c) (address_after h.address c))

theorem shows_new : ({} : Engine).Shows .high false := ⟨by decide, by decide, by decide⟩

/-- Whatever is asked of an engine, it pulls the line in these states alone: as an initiator at a start
bit, at the low part of a bit and of the ACK slot, and as a follower in the ACK slot of a block whose frame
was for its own address when the slot began. A broadcast is never pulled. -/
theorem output_low_iff (calls : List Call) :
    let e := ({} : Engine).run calls
    let ts := ({} : Engine).turns calls
    (output ts = .low ↔ e.state.drives = true ∨ e.state.answers = true ∧ ownSlot ts = true) ∧
    (e.state.mayPull = false → output ts = .high) ∧
    (e.state.answers = true → e.rx.destination = .broadcast → output ts = .high) := by
  intro e ts
  have h : e.Shows (output ts) (ownSlot ts) := shows_run shows_new calls
  have high : ∀ {l : Level}, l ≠ .low → l = .high := fun {l} hl => by
    cases l with
    | low => exact absurd rfl hl
    | high => rfl
  refine ⟨h.low_iff, fun hfree => high fun hlow => ?_, fun hans hb => high fun hlow => ?_⟩
  · rw [mayPull_eq, Bool.or_eq_false_iff] at hfree
    rcases h.low_iff.1 hlow with hd | ⟨ha, -⟩
    · rw [hfree.1] at hd; cases hd
    · rw [hfree.2] at ha; cases ha
  · rcases h.low_iff.1 hlow with hd | ⟨-, hown⟩
    · rcases State.answers_cases hans with hs | hs <;> rw [hs] at hd <;> cases hd
    · exact h.meant hans hown hb

/-- The start bit of a poll. -/
example : output (({} : Engine).turns [.setEnabled true, .send [0x04], .timeout none]) = .low := by decide

end Engine
end HdmiCec
