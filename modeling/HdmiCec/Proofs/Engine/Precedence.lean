import HdmiCec.Proofs.Engine.Attended
import HdmiCec.Proofs.Engine.Entering
import HdmiCec.Proofs.Engine.Resends

/-! Who has to wait longest. How long the line must be free before a start bit goes by what the engine and the bus
have been through: whether the frame was refused before, and whose start bit came last. The second is kept as one
flag, which is lost whenever an edge on the idle bus is followed; so it tells the truth unless the pulse turns out
to be no start bit (`free_time_by_history`, `free_time_after_glitch`). -/
namespace HdmiCec

def State.mark (own : Bool) : State → Bool
  | .disabled | .follower .startLow => false
  | .initiator .startLow => true
  | _ => own

theorem Outgoing.ticks_freeTime (x : Outgoing) : x.freeTime.ticks =
    if 0 < x.resends then 2 * nominalBit else if x.presentInitiator then 6 * nominalBit else 4 * nominalBit := by
  unfold Outgoing.freeTime
  split
  · rfl
  · split <;> rfl

namespace Engine

namespace Turn

/-- The pulse that is followed turns out to be the low part of a start bit. -/
def startBit (t : Turn) : Bool :=
  match t.call with
  | .capture low => t.before.state == .follower .startLow && StartPulse.ofLow low == .valid
  | _ => false

def yields (t : Turn) : Bool :=
  match t.before.state, t.after.state with
  | .initiator _, .follower .startLow => true
  | _, _ => false

/-- The pulse that is followed turns out to be something else, or does not end. -/
def strays (t : Turn) : Bool :=
  t.before.state == .follower .startLow && t.after.state != .follower .startLow && !t.startBit

def speaker (own : Bool) (t : Turn) : Bool :=
  if t.after.state = .disabled then false else if t.begins then true
  else if t.startBit || t.yields then false else own

def disturb (w : Bool) (t : Turn) : Bool := if t.begins then false else w || t.strays

end Turn

/-- Since the engine was switched on it has driven a start bit, and none of another one was heard since. -/
def ownStart (ts : List Turn) : Bool := ts.foldl Turn.speaker false

/-- Since its last start bit the engine has followed a pulse that was none. -/
def disturbed (ts : List Turn) : Bool := ts.foldl Turn.disturb false

variable {e : Engine} {c : Call} {line : Reading} {m : Message} {own stray : Bool}

theorem mark_entry (e : Engine) (s : State) (line : Reading) :
    (e.entry s line).engine.tx.presentInitiator = s.mark e.tx.presentInitiator := by
  cases s with
  | disabled => rfl
  | idle => rfl
  | initiator s =>
    cases s with
    | low f | high f => cases f <;> rfl
    | _ => rfl
  | follower s =>
    cases s with
    | ackFinish =>
      show (e.followerEntry .ackFinish line).engine.tx.presentInitiator = _
      rw [engine_ackFinish]
      rfl
    | _ => rfl

theorem mark_enter (e : Engine) (s : State) (line : Reading) :
    (e.enter s line).engine.tx.presentInitiator = (e.enter s line).engine.state.mark e.tx.presentInitiator := by
  rw [state_enter]
  simp only [enter]
  rw [mark_entry]
  split <;> rfl

/-- The mark changes only where a state is entered that says so. -/
theorem mark_after (e : Engine) (c : Call) :
    (e.after c).state = e.state ∧ (e.after c).tx.presentInitiator = e.tx.presentInitiator ∨
      (e.after c).tx.presentInitiator = (e.after c).state.mark e.tx.presentInitiator := by
  unfold Engine.after
  cases e.entering c with
  | stays hs h => exact .inl ⟨hs, h.mark⟩
  | enters h hr =>
    rw [hr, ← h.mark]
    exact .inr (mark_enter _ _ _)

/-- How the mark goes with what the history says. While a pulse is followed the mark is down, whatever it will
turn out to be. -/
structure Marked (e : Engine) (own stray : Bool) : Prop where
  mark : e.tx.presentInitiator = (own && !stray && e.state != .follower .startLow)
  off : e.state = .disabled → own = false
  start : e.state = .initiator .startLow → own = true ∧ stray = false

theorem startBit_before (h : Turn.startBit ⟨e, c⟩ = true) : e.state = .follower .startLow := by
  cases c with
  | capture low => exact eq_of_beq (Bool.and_eq_true_iff.1 h).1
  | _ => cases h

theorem not_begins_of (h : (e.after c).state ≠ .initiator .startLow) : Turn.begins ⟨e, c⟩ = false := by
  rw [← Bool.not_eq_true, begins_iff]
  exact fun hb => h hb.2

theorem not_yields_of (h : (e.after c).state ≠ .follower .startLow) : Turn.yields ⟨e, c⟩ = false := by
  rw [← Bool.not_eq_true]
  intro hy
  unfold Turn.yields at hy
  split at hy
  · next hs => exact h hs
  · cases hy

/-- Only a pulse that is followed can turn out to be anything. -/
theorem calm_of_not_following (h : e.state ≠ .follower .startLow) :
    Turn.startBit ⟨e, c⟩ = false ∧ Turn.strays ⟨e, c⟩ = false := by
  refine ⟨?_, by rw [Turn.strays, beq_eq_false_iff_ne.2 h]; rfl⟩
  rw [← Bool.not_eq_true]
  exact fun hb => h (startBit_before hb)

theorem speaker_of_on (h : (e.after c).state ≠ .disabled) : Turn.speaker own ⟨e, c⟩ =
    if Turn.begins ⟨e, c⟩ then true else if Turn.startBit ⟨e, c⟩ || Turn.yields ⟨e, c⟩ then false else own :=
  if_neg h

theorem Marked.switched_off (h : e.Marked own stray) (hoff : (e.after c).state = .disabled) :
    (e.after c).Marked (Turn.speaker own ⟨e, c⟩) (Turn.disturb stray ⟨e, c⟩) := by
  have hown : Turn.speaker own ⟨e, c⟩ = false := if_pos hoff
  rw [hown]
  refine ⟨?_, fun _ => rfl, fun hs => State.noConfusion (hoff.symm.trans hs)⟩
  rcases e.mark_after c with ⟨hs, hm⟩ | hm
  · rw [hm, h.mark, h.off (hs.symm.trans hoff)]
    rfl
  · rw [hm, hoff]
    rfl

theorem Marked.starts (h : e.Marked own stray) (hstart : (e.after c).state = .initiator .startLow) :
    (e.after c).Marked (Turn.speaker own ⟨e, c⟩) (Turn.disturb stray ⟨e, c⟩) := by
  have hon : (e.after c).state ≠ .disabled := by rw [hstart]; simp
  have hown : Turn.speaker own ⟨e, c⟩ = true ∧ Turn.disturb stray ⟨e, c⟩ = false := by
    rw [speaker_of_on hon, Turn.disturb]
    by_cases hs : e.state = .initiator .startLow
    · obtain ⟨hbit, hstrays⟩ := calm_of_not_following (e := e) (c := c) (by rw [hs]; simp)
      have hbegins : Turn.begins ⟨e, c⟩ = false := by
        rw [← Bool.not_eq_true, begins_iff]
        exact fun hb => hb.1 hs
      rw [hbegins, hbit, not_yields_of (by rw [hstart]; simp), hstrays, (h.start hs).1, (h.start hs).2]
      exact ⟨rfl, rfl⟩
    · rw [begins_iff.2 ⟨hs, hstart⟩]
      exact ⟨rfl, rfl⟩
  rw [hown.1, hown.2]
  refine ⟨?_, fun ho => absurd ho hon, fun _ => ⟨rfl, rfl⟩⟩
  rcases e.mark_after c with ⟨hs, hm⟩ | hm
  · rw [hm, h.mark, (h.start (hs.symm.trans hstart)).1, (h.start (hs.symm.trans hstart)).2, ← hs, hstart]
  · rw [hm, hstart]
    rfl

theorem Marked.follows (h : e.Marked own stray) (hfollow : (e.after c).state = .follower .startLow) :
    (e.after c).Marked (Turn.speaker own ⟨e, c⟩) (Turn.disturb stray ⟨e, c⟩) := by
  refine ⟨?_, fun ho => State.noConfusion (hfollow.symm.trans ho),
    fun hs => State.noConfusion (hfollow.symm.trans hs)⟩
  rw [hfollow]
  rcases e.mark_after c with ⟨hsame, hm⟩ | hm
  · rw [hm, h.mark, hsame.symm.trans hfollow]
    simp
  · rw [hm, hfollow]
    simp [State.mark]

/-- In all other states the mark stays as it is; it was down if a pulse was followed. -/
theorem Marked.goes_on (h : e.Marked own stray) (hon : (e.after c).state ≠ .disabled)
    (hstart : (e.after c).state ≠ .initiator .startLow) (hfollow : (e.after c).state ≠ .follower .startLow) :
    (e.after c).Marked (Turn.speaker own ⟨e, c⟩) (Turn.disturb stray ⟨e, c⟩) := by
  refine ⟨?_, fun ho => absurd ho hon, fun hs => absurd hs hstart⟩
  have hmark : (e.after c).tx.presentInitiator = e.tx.presentInitiator := by
    rcases e.mark_after c with ⟨-, hm⟩ | hm
    · exact hm
    · rw [hm]
      unfold State.mark
      split <;> first | contradiction | rfl
  rw [speaker_of_on hon, Turn.disturb, not_begins_of hstart, not_yields_of hfollow, hmark, h.mark, bne_iff_ne.2 hfollow]
  by_cases hs : e.state = .follower .startLow
  · rw [Turn.strays, show (⟨e, c⟩ : Turn).after = e.after c from rfl, hs, bne_iff_ne.2 hfollow]
    cases Turn.startBit ⟨e, c⟩ <;> simp
  · obtain ⟨hbit, hstrays⟩ := calm_of_not_following (c := c) hs
    rw [hbit, hstrays, bne_iff_ne.2 hs]
    simp

/-- By the state that is entered. -/
theorem Marked.after (h : e.Marked own stray) (c : Call) :
    (e.after c).Marked (Turn.speaker own ⟨e, c⟩) (Turn.disturb stray ⟨e, c⟩) := by
  by_cases hoff : (e.after c).state = .disabled
  · exact h.switched_off hoff
  by_cases hstart : (e.after c).state = .initiator .startLow
  · exact h.starts hstart
  by_cases hfollow : (e.after c).state = .follower .startLow
  · exact h.follows hfollow
  · exact h.goes_on hoff hstart hfollow

theorem marked_run (h : e.Marked own stray) (calls : List Call) :
    (e.run calls).Marked ((e.turns calls).foldl Turn.speaker own) ((e.turns calls).foldl Turn.disturb stray) := by
  induction calls generalizing e own stray with
  | nil => exact h
  | cons c rest ih => exact ih (h.after c)

theorem actions_enter_freeTime {s : State} (h : (e.enter s line).engine.state = .initiator .freeTime) :
    (e.enter s line).actions = [.set .high, .arm (.within .falling (e.enter s line).engine.tx.freeTime.ticks)] :=
  actions_enter ((e.state_enter s line).symm.trans h) line

/-- Whatever brings an engine to its free time, it lets go of the line and waits as long as it has to. -/
theorem actions_freeTime (hs : e.state ≠ .initiator .freeTime) (hu : (e.after c).state = .initiator .freeTime) :
    (Turn.did ⟨e, c⟩).actions = [.set .high, .arm (.within .falling (e.after c).tx.freeTime.ticks)] := by
  unfold Engine.after at hu
  unfold Turn.did Engine.after
  cases e.entering c with
  | stays h => exact absurd (h.symm.trans hu) hs
  | @enters d s line _ hr _ hact =>
    rw [hr] at hu ⊢
    have hon : s ≠ .disabled := by
      rintro rfl
      rw [state_enter, target_of_ne_idle d (by simp)] at hu
      cases hu
    rw [hact hon]
    exact actions_enter_freeTime hu

/-- Whenever an engine has to wait until it may speak, its free time is two bits if the frame was refused since it
was taken; else six if the last start bit was the engine's own, and four if not. But six only if no pulse that it
followed since then was something else than a start bit. -/
theorem free_time_by_history {a : List Call} (hbefore : (({} : Engine).run a).state ≠ .initiator .freeTime)
    (hafter : (({} : Engine).run (a ++ [c])).state = .initiator .freeTime) :
    let ts := ({} : Engine).turns (a ++ [c])
    ∃ m, pending ts = some m ∧ (Turn.did ⟨({} : Engine).run a, c⟩).actions = [.set .high, .arm (.within .falling
      (if (tries ts).any m.refuses then 2 * nominalBit
        else if ownStart ts && !disturbed ts then 6 * nominalBit else 4 * nominalBit))] := by
  intro ts
  have hs := steady_run (a ++ [c])
  have hpend := pending_turns (a ++ [c])
  have hmark : (({} : Engine).run (a ++ [c])).Marked (ownStart ts) (disturbed ts) :=
    marked_run ⟨rfl, fun _ => rfl, fun h => by cases h⟩ (a ++ [c])
  have hbusy := (hs.busy _ hafter).1
  have hheld : (({} : Engine).run (a ++ [c])).held = some (({} : Engine).run (a ++ [c])).tx.message := if_pos hbusy
  have htally := tally_run hheld
  have hrun : ({} : Engine).run (a ++ [c]) = (({} : Engine).run a).after c := run_append _ _ _
  refine ⟨_, hpend.trans hheld, ?_⟩
  rw [actions_freeTime hbefore (hrun ▸ hafter), ← hrun]
  congr 4
  generalize ({} : Engine).run (a ++ [c]) = e at *
  have hown := hmark.mark
  rw [hafter, show (State.initiator .freeTime != .follower .startLow) = true from rfl, Bool.and_true] at hown
  rw [← hown]
  have hcount : e.tx.resends = (tries ts).countP e.tx.message.refuses := by
    generalize tries ts = all at htally
    cases htally with
    | waits _ hcount => exact hcount
    | trying h => exact absurd (State.initiator.inj (h.state.symm.trans hafter)) h.speaks
  have hrefused : (tries ts).any e.tx.message.refuses = true ↔ 0 < e.tx.resends := by
    rw [hcount, List.countP_pos_iff, List.any_eq_true]
  simp only [Outgoing.ticks_freeTime, hrefused]

/-- A second frame after one that went through. -/
theorem free_time_by_history_again :
    let a : List Call := [.setEnabled true, .send [4]] ++ .replicate 24 (.timeout (some .low))
    let ts := ({} : Engine).turns (a ++ [.send [4]])
    (({} : Engine).run a).state = .idle ∧ (({} : Engine).run (a ++ [.send [4]])).state = .initiator .freeTime ∧
      ∃ m, pending ts = some m ∧ (Turn.did ⟨({} : Engine).run a, .send [4]⟩).actions =
        [.set .high, .arm (.within .falling (6 * nominalBit))] := by
  intro a ts
  have hidle : (({} : Engine).run a).state = .idle := by decide +kernel
  have hfree : (({} : Engine).run (a ++ [.send [4]])).state = .initiator .freeTime := by decide +kernel
  obtain ⟨m, hm, hact⟩ := free_time_by_history (by rw [hidle]; simp) hfree
  have hm4 : pending ts = some [4] := by decide +kernel
  have hticks : (if (tries ts).any (Message.refuses [4]) then 2 * nominalBit
      else if ownStart ts && !disturbed ts then 6 * nominalBit else 4 * nominalBit) = 6 * nominalBit := by decide +kernel
  cases hm.symm.trans hm4
  exact ⟨hidle, hfree, [4], hm4, by rw [hact, hticks]⟩

/-- A glitch on the idle bus makes the engine forget that it spoke last. It is no start bit, nobody else has spoken
and nothing was refused, but the next frame waits no longer than that of a newcomer. -/
theorem free_time_after_glitch :
    let a : List Call := [.setEnabled true, .send [4]] ++ .replicate 24 (.timeout (some .low)) ++
      [.capture 0, .capture 150, .timeout none]
    let ts := ({} : Engine).turns (a ++ [.send [4]])
    ({} : Engine).Heeds none (a ++ [.send [4]]) ∧ StartPulse.ofLow 150 = .glitch ∧
      (({} : Engine).run a).state = .idle ∧ (({} : Engine).run (a ++ [.send [4]])).state = .initiator .freeTime ∧
      pending ts = some [4] ∧ tries ts = [] ∧ ownStart ts = true ∧
      (Turn.did ⟨({} : Engine).run a, .send [4]⟩).actions ≠ [.set .high, .arm (.within .falling (6 * nominalBit))] ∧
      (Turn.did ⟨({} : Engine).run a, .send [4]⟩).actions = [.set .high, .arm (.within .falling (4 * nominalBit))] := by
  decide +kernel

end Engine
end HdmiCec
