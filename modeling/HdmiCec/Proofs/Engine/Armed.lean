import HdmiCec.Proofs.Engine.History

/-! The wait that an engine has armed. It is read off what the engine does, and after every history
it is the one that goes with the engine's state (`armed_run`); events that obey it come only where
the engine waits for them. -/
namespace HdmiCec

def LineAction.rearm (w : Option Wait) : LineAction → Option Wait
  | .set _ => w
  | .arm v => some v
  | .stop => none

/-- Whether an event may come while `w` is armed. -/
def Wait.Admits (w : Option Wait) : Engine.Call → Prop
  | .capture _ => ∃ v, w = some v ∧ v.edge.isSome = true
  | .timeout _ => ∃ v, w = some v ∧ v.timeout.isSome = true
  | _ => False

instance (w : Option Wait) (c : Engine.Call) : Decidable (Wait.Admits w c) :=
  match w, c with
  | none, .capture _ | none, .timeout _ => isFalse fun ⟨_, h, _⟩ => nomatch h
  | some v, .capture _ => decidable_of_iff (v.edge.isSome = true) ⟨fun h => ⟨v, rfl, h⟩, fun ⟨_, h, hv⟩ => by cases h; exact hv⟩
  | some v, .timeout _ => decidable_of_iff (v.timeout.isSome = true) ⟨fun h => ⟨v, rfl, h⟩, fun ⟨_, h, hv⟩ => by cases h; exact hv⟩
  | _, .setAddress _ | _, .setEnabled _ | _, .submit _ | _, .startSend | _, .send _ => isFalse id

theorem Wait.Admits.isEvent {w : Option Wait} {c : Engine.Call} (h : Admits w c) : c.isEvent = true := by
  cases c with
  | capture | timeout => rfl
  | _ => exact h.elim

namespace Engine

def Turn.rearm (w : Option Wait) (t : Turn) : Option Wait := t.did.actions.foldl LineAction.rearm w

def armed (ts : List Turn) : Option Wait := ts.foldl Turn.rearm none

/-- Events only, and each of them one that is armed. -/
def Obeys (e : Engine) (w : Option Wait) : List Call → Prop
  | [] => True
  | c :: rest => Wait.Admits w c ∧ (e.after c).Obeys (Turn.rearm w ⟨e, c⟩) rest

instance decidableObeys : (e : Engine) → (w : Option Wait) → (calls : List Call) → Decidable (e.Obeys w calls)
  | _, _, [] => isTrue trivial
  | e, w, c :: rest =>
    have := decidableObeys (e.after c) (Turn.rearm w ⟨e, c⟩) rest
    inferInstanceAs (Decidable (_ ∧ _))

variable {e : Engine} {w : Option Wait} {line : Reading}

def Armed (e : Engine) (w : Option Wait) : Prop := ∀ v, w = some v → e.Awaits v

theorem target_ne_disabled (e : Engine) {s : State} (hs : s ≠ .disabled) : e.target s ≠ .disabled := by
  unfold target
  split
  · simp
  · exact hs

theorem armed_enter (e : Engine) {s : State} (hs : s ≠ .disabled) (line : Reading) (w : Option Wait) :
    (e.enter s line).engine.Armed ((e.enter s line).actions.foldl LineAction.rearm w) := by
  simp only [enter]
  generalize (if s = .idle then e.rest else e) = e'
  obtain ⟨v, hv, hawaits⟩ := awaits_entry { e' with state := e.target s } line (e.target_ne_disabled hs)
  intro u hu
  simp only [Entry.actions, hv, List.foldl_append, Option.map_some, Option.toList_some, List.foldl_cons,
    List.foldl_nil, LineAction.rearm, Option.some.injEq] at hu
  rw [← hu]
  exact hawaits

/-- Only an initiator waits by the frame that it sends. -/
theorem awaits_congr {d e : Engine} {v : Wait} (hs : d.state = e.state) (hr : d.rx = e.rx)
    (hn : ∀ s, e.state ≠ .initiator s) (h : e.Awaits v) : d.Awaits v := by
  obtain ⟨s, r, x, a⟩ := d
  obtain ⟨_, _, y, b⟩ := e
  cases hs
  cases hr
  cases s with
  | initiator s => exact absurd rfl (hn s)
  | follower s => cases s <;> exact h
  | _ => exact h

theorem Armed.load (h : e.Armed w) (he : e.Steady) {m : Message} (ha : e.Accepts m) : (e.load m).Armed w := by
  refine fun v hv => awaits_congr (e.load_state m) (e.load_rx m) (fun s hs => ?_) (h v hv)
  exact absurd (he.busy s hs).1 (by simp [ha.2.2])

theorem Armed.startSend (h : e.Armed w) :
    e.startSend.engine.Armed (e.startSend.actions.foldl LineAction.rearm w) := by
  unfold Engine.startSend
  split
  · exact armed_enter e (by simp) none w
  · exact h

/-- No move leads to where an engine is off. -/
theorem Armed.onTimeout (h : e.Armed w) (line : Reading) :
    (e.onTimeout line).engine.Armed ((e.onTimeout line).actions.foldl LineAction.rearm w) := by
  by_cases hd : e.state = .disabled
  · simpa [Engine.onTimeout, deadlineMove?, hd] using h
  have hstate := (onTimeout_state line hd).1
  unfold Engine.onTimeout at hstate ⊢
  cases hm : e.deadlineMove? with
  | none => exact h
  | some m =>
    simp only [hm, perform, state_enter] at hstate ⊢
    refine armed_enter m.engine (fun hn => hstate ?_) line w
    rw [hn]
    exact m.engine.target_of_ne_idle (by simp)

theorem Armed.onCapture (h : e.Armed w) (t : Ticks) :
    (e.onCapture t).engine.Armed ((e.onCapture t).actions.foldl LineAction.rearm w) := by
  by_cases hd : e.state = .disabled
  · simpa [Engine.onCapture, edgeMove?, hd] using h
  have hstate := onCapture_state t hd
  unfold Engine.onCapture at hstate ⊢
  cases hm : e.edgeMove? t with
  | none => exact h
  | some m =>
    simp only [hm, perform, state_enter] at hstate ⊢
    refine armed_enter m.engine (fun hn => hstate ?_) none w
    rw [hn]
    exact m.engine.target_of_ne_idle (by simp)

theorem Armed.after (h : e.Armed w) (he : e.Steady) (c : Call) : (e.after c).Armed (Turn.rearm w ⟨e, c⟩) := by
  cases c with
  | setAddress a =>
    by_cases ha : a.Assignable
    · simp only [Engine.after, Turn.rearm, Turn.did, answer, Engine.setAddress, if_pos ha]
      exact h
    · simp only [Engine.after, Turn.rearm, Turn.did, answer, Engine.setAddress, if_neg ha]
      exact h
  | setEnabled on =>
    show (e.setEnabled on).engine.Armed ((e.setEnabled on).actions.foldl LineAction.rearm w)
    unfold Engine.setEnabled
    split
    · exact h
    · split
      · exact armed_enter e (by simp) none w
      · intro v hv
        cases hv
  | submit m =>
    by_cases ha : e.Accepts m
    · simp only [Engine.after, Turn.rearm, Turn.did, answer_submit ha]
      exact h.load he ha
    · obtain ⟨x, hx⟩ := answer_submit_refused ha
      simp only [Engine.after, Turn.rearm, Turn.did, hx]
      exact h
  | startSend => exact h.startSend
  | send m =>
    by_cases ha : e.Accepts m
    · simp only [Engine.after, Turn.rearm, Turn.did, answer_send ha]
      exact (h.load he ha).startSend
    · obtain ⟨x, hx⟩ := answer_send_refused ha
      simp only [Engine.after, Turn.rearm, Turn.did, hx]
      exact h
  | capture t => exact h.onCapture t
  | timeout line => exact h.onTimeout line

theorem armed_turns (h : e.Armed w) (he : e.Steady) (calls : List Call) :
    (e.run calls).Armed ((e.turns calls).foldl Turn.rearm w) := by
  induction calls generalizing e w with
  | nil => exact h
  | cons c rest ih => exact ih (h.after he c) (he.after c)

theorem armed_run (calls : List Call) : (({} : Engine).run calls).Armed (armed (({} : Engine).turns calls)) :=
  armed_turns (fun _ hv => by cases hv) steady_new calls

theorem Armed.edge (h : e.Armed w) {t : Ticks} (ha : Wait.Admits w (.capture t)) : e.state = .idle ∨
    (∃ s, e.state = .initiator s ∧ s.edge?.isSome = true) ∨
    ∃ s, e.state = .follower s ∧ (s.edge? e.rx).isSome = true := by
  obtain ⟨v, hv, hedge⟩ := ha
  have hawaits := h v hv
  unfold Awaits at hawaits
  cases hs : e.state with
  | disabled =>
    rw [hs] at hawaits
    exact hawaits.elim
  | idle => exact .inl rfl
  | initiator s =>
    simp only [hs] at hawaits
    rw [hawaits] at hedge
    exact .inr (.inl ⟨s, rfl, hedge⟩)
  | follower s =>
    simp only [hs] at hawaits
    cases s with
    | debounce => rcases hawaits with rfl | rfl <;> cases hedge
    | _ =>
      rw [hawaits] at hedge
      exact .inr (.inr ⟨_, rfl, hedge⟩)

theorem Armed.outcome_onCapture (h : e.Armed w) {t : Ticks} (ha : Wait.Admits w (.capture t)) :
    (e.onCapture t).outcome = none := by
  refine Engine.outcome_onCapture ?_
  rcases h.edge ha with hs | ⟨s, hs, -⟩ | ⟨s, hs, hedge⟩ <;> rw [hs]
  · simp
  · simp
  · rintro ⟨⟩
    cases hedge

theorem Armed.deadline (h : e.Armed w) {line : Reading} (ha : Wait.Admits w (.timeout line)) :
    (∃ s, e.state = .initiator s) ∨ ∃ s, e.state = .follower s := by
  obtain ⟨v, hv, htimeout⟩ := ha
  have hawaits := h v hv
  unfold Awaits at hawaits
  cases hs : e.state with
  | disabled =>
    rw [hs] at hawaits
    exact hawaits.elim
  | idle =>
    rw [hs] at hawaits
    rw [hawaits] at htimeout
    cases htimeout
  | initiator s => exact .inl ⟨s, rfl⟩
  | follower s => exact .inr ⟨s, rfl⟩

end Engine
end HdmiCec
