import HdmiCec.Proofs.Engine.Signal

/-! How often a frame is tried. A history says of the frame that is open which attempts were made to send it,
and what their ACK slots gave (`tries`); whatever else came between them. What comes of the frame depends on
these slots alone (`fate_of_slots`), because the engine counts an attempt only where it judges one
(`Tally`). -/
namespace HdmiCec

def Message.acks (m : Message) (r : Reading) : Bool := r.isLow != m.destination.isBroadcast

def Message.refuses (m : Message) (slots : List Reading) : Bool := slots.any fun r => !m.acks r

def Message.acknowledged (m : Message) (slots : List Reading) : Bool := slots.length == m.length && slots.all m.acks

/-- An attempt that is over and did not succeed: another one came first, or its last slot gave no ACK. -/
def Message.Spent (m : Message) (slots : List Reading) : Prop :=
  slots = [] ∨ slots.length ≤ m.length ∧ ∃ r older, slots = r :: older ∧ m.acks r = false ∧ ∀ x ∈ older, m.acks x = true

/-- How many blocks have been judged in an attempt when its cursor is at `pos`. -/
def Initiator.judged (s : Initiator) (pos : Nat) : Nat :=
  match s with
  | freeTime | startLow | startHigh => 0
  | low .eom | high .eom | ackLow | ackHigh => pos / 8 - 1
  | low _ | high _ | ackVerify => pos / 8

namespace Engine

namespace Turn

def begins (t : Turn) : Bool := t.before.state != .initiator .startLow && t.after.state == .initiator .startLow

def tries (l : List (List Reading)) (t : Turn) : List (List Reading) :=
  if t.accepts then [] else if t.begins then [] :: l
  else match t.sample? with
    | some r => l.modifyHead (r :: ·)
    | none => l

end Turn

/-- The attempts to send the frame that was taken last, each with what its ACK slots gave; the newest come first. -/
def tries (ts : List Turn) : List (List Reading) := ts.foldl Turn.tries []

variable {e : Engine} {m : Message} {c : Call} {s u : Initiator} {line : Reading} {all rest : List (List Reading)}
  {slots : List Reading}

end Engine

namespace Message

variable {m : Message} {slots : List Reading} {r : Reading}

theorem refuses_cons : m.refuses (r :: slots) = (!m.acks r || m.refuses slots) := rfl

theorem refuses_eq_false : m.refuses slots = false ↔ ∀ r ∈ slots, m.acks r = true := by
  simp [refuses]

theorem acknowledged_iff : m.acknowledged slots = true ↔ slots.length = m.length ∧ m.refuses slots = false := by
  simp [acknowledged, refuses]

theorem Spent.refuses (h : m.Spent slots) : slots = [] ∨ m.refuses slots = true := by
  rcases h with rfl | ⟨-, r, older, rfl, hr, -⟩
  · exact .inl rfl
  · exact .inr (by rw [refuses_cons, hr]; rfl)

theorem Spent.tail (h : m.Spent slots) : slots.length ≤ m.length ∧ ∀ r ∈ slots.tail, m.acks r = true := by
  rcases h with rfl | ⟨hlen, r, older, rfl, -, hold⟩
  · exact ⟨Nat.zero_le _, fun r hr => by cases hr⟩
  · exact ⟨hlen, hold⟩

theorem Spent.not_acknowledged (h : m.Spent slots) (hm : m ≠ []) : m.acknowledged slots = false := by
  rw [← Bool.not_eq_true, acknowledged_iff]
  rintro ⟨hlen, hnone⟩
  rcases h.refuses with rfl | hr
  · exact hm (List.length_eq_zero_iff.1 hlen.symm)
  · rw [hr] at hnone
    cases hnone

end Message

namespace Engine

variable {e : Engine} {m : Message} {c : Call} {s u : Initiator} {line : Reading} {all rest : List (List Reading)}
  {slots : List Reading}

/-- An engine in the middle of an attempt to send `m`. It has counted the attempts that were refused before, and
judged as many blocks of this one as are out. -/
structure Trying (e : Engine) (m : Message) (s : Initiator) (slots : List Reading) (rest : List (List Reading)) :
    Prop where
  state : e.state = .initiator s
  speaks : s ≠ .freeTime
  counted : e.tx.resends = rest.countP m.refuses
  spent : ∀ slots ∈ rest, m.Spent slots
  length : slots.length = s.judged e.tx.buffer.pos
  acks : s ≠ .ackVerify → m.refuses slots = false
  /-- The last block has been judged, what comes of it is open. -/
  lastSlot : s = .ackVerify → ∃ r older, slots = r :: older ∧ m.refuses older = false ∧ e.tx.acked = m.acks r

/-- How the attempts to send a frame go with the engine that holds it. -/
inductive Tally (e : Engine) (m : Message) : List (List Reading) → Prop
  | waits {all : List (List Reading)} : e.state.speaks = false → e.tx.resends = all.countP m.refuses →
      (∀ slots ∈ all, m.Spent slots) → Tally e m all
  | trying {s : Initiator} {slots : List Reading} {rest : List (List Reading)} : e.Trying m s slots rest →
      Tally e m (slots :: rest)

theorem begins_iff : Turn.begins ⟨e, c⟩ = true ↔
    e.state ≠ .initiator .startLow ∧ (e.after c).state = .initiator .startLow := by
  rw [Turn.begins, Bool.and_eq_true, bne_iff_ne, beq_iff_eq]
  rfl

/-- Only out of its free time an engine begins a start bit. -/
theorem not_begins (h : e.Steady) (hs : e.state ≠ .initiator .freeTime) : Turn.begins ⟨e, c⟩ = false := by
  rw [← Bool.not_eq_true, begins_iff]
  rintro ⟨hne, hstart⟩
  obtain ⟨-, -, hfree⟩ := startLow_entered h hne hstart
  exact hs hfree

theorem sample?_of_ne (hs : e.state ≠ .initiator .ackHigh) : Turn.sample? ⟨e, c⟩ = none := by
  cases c with
  | timeout line => exact if_neg hs
  | _ => rfl

/-- A turn that neither takes a frame nor begins a start bit nor reads the line leaves the attempts as they are. -/
theorem tries_same {t : Turn} (ha : t.accepts = false) (hb : t.begins = false) (hr : t.sample? = none) :
    t.tries all = all := by
  rw [Turn.tries, ha, hb, hr]
  rfl

/-- Before the last block is judged not all of them are. -/
theorem judged_lt (h : e.Steady) (hs : e.state = .initiator s) (hv : s ≠ .ackVerify) :
    s.judged e.tx.buffer.pos < e.tx.length := by
  obtain ⟨hp, hc⟩ := h.busy s hs
  have hlen := Outgoing.length_pos hp
  cases s with
  | freeTime | startLow | startHigh => exact hlen
  | low f | high f =>
    cases f <;> simp only [Initiator.Cursor, BitKind.Within] at hc <;> simp only [Initiator.judged] <;> omega
  | ackLow | ackHigh =>
    simp only [Initiator.Cursor, BitKind.Within] at hc
    simp only [Initiator.judged]
    omega
  | ackVerify => exact absurd rfl hv

/-- The cursor of a bit within a block goes on without another one being judged. -/
theorem judged_next {f : BitKind} {b : BitBuffer} {n : Nat} (hw : f.Within b.pos n) (hf : f ≠ .eom) (hn : 0 < n)
    (hm : n ≤ Message.maxLength) :
    (Initiator.low (f.next b.advance)).judged b.advance.pos = (Initiator.high f).judged b.pos := by
  have hnext := hw.next hf hn hm
  have hpos : b.advance.pos = b.pos + 1 := BitBuffer.pos_advance (hw.pos_lt_capacity hf hn hm)
  have hend := hnext.eom_iff hf (by omega)
  have hbefore : (Initiator.high f).judged b.pos = b.pos / 8 := by
    cases f with
    | eom => exact absurd rfl hf
    | _ => rfl
  rw [hbefore]
  generalize f.next b.advance = g at hend
  rw [hpos] at hend ⊢
  cases g with
  | eom =>
    have := hend.1 rfl
    simp only [Initiator.judged]
    omega
  | headerInit | headerDest | data =>
    have : ¬ (b.pos + 1) % 8 = 0 := fun h0 => by cases hend.2 h0
    simp only [Initiator.judged]
    omega

theorem Tally.taken (h : e.Steady) (ha : Turn.accepts ⟨e, c⟩ = true) : (e.after c).Tally m (Turn.tries all ⟨e, c⟩) := by
  have hnone : Turn.tries all ⟨e, c⟩ = [] := by rw [Turn.tries, if_pos ha]
  have fresh : e.isSending = false → (e.after c).tx.resends = e.tx.resends → (e.after c).tx.resends = 0 := fun hp hr =>
    hr.trans (h.tx.fresh hp)
  have quiet : e.isSending = false → e.state.speaks = false := fun hp => by
    rw [← Bool.not_eq_true, speaks_iff]
    rintro ⟨u, hu, -⟩
    rw [(h.busy u hu).1] at hp
    cases hp
  rw [hnone]
  have hx := e.answers c
  simp only [Turn.accepts, Turn.reply] at ha
  unfold Engine.after at fresh ⊢
  generalize hy : e.answer c = x at hx ha fresh ⊢
  cases hx with
  | refuses => cases c <;> simp at ha
  | takes hacc | defers hacc =>
    exact .waits (by rw [load_state]; exact quiet hacc.2.2) (fresh hacc.2.2 (by rw [load_tx])) fun slots hs => by cases hs
  | sends hacc _ hr =>
    simp only [hr] at fresh ⊢
    exact .waits rfl (fresh hacc.2.2 (by rw [contend, load_tx])) fun slots hs => by cases hs
  | _ => simp [Call.message?] at ha

/-- Short of a deadline, an engine that keeps its frame goes on just so, or is not in the middle of an attempt then;
it leaves one only before any block has been judged. -/
theorem attempt_after_calm (h : e.Steady) (hp : e.isSending = true) (hc : ∀ line, c ≠ .timeout line)
    (hp' : (e.after c).isSending = true) : (e.after c).tx.resends = e.tx.resends ∧
      ((e.after c).state = e.state ∧ (e.after c).tx = e.tx ∨
        (e.after c).state.speaks = false ∧ ∀ s, e.state = .initiator s → s.judged e.tx.buffer.pos = 0) := by
  have refused : ∀ m, ¬ e.Accepts m := fun m ha => by simp [ha.2.2] at hp
  have hx := e.answers c
  unfold Engine.after at hp' ⊢
  generalize e.answer c = x at hx hp' ⊢
  cases hx with
  | refuses | renamed | same | stays => exact ⟨rfl, .inl ⟨rfl, rfl⟩⟩
  | on hd =>
    rw [h.off hd] at hp
    cases hp
  | off _ hr =>
    simp only [hr] at hp'
    cases hp'
  | takes ha | sends ha | defers ha => exact absurd ha (refused _)
  | contends hi _ hr =>
    simp only [hr]
    exact ⟨rfl, .inr ⟨rfl, fun s hs => by rw [hi] at hs; cases hs⟩⟩
  | @edge t =>
    refine ⟨(e.onCapture_same t).resends, ?_⟩
    cases hs : e.state with
    | initiator s =>
      by_cases hy : s = .freeTime ∨ s = .startHigh ∨ s = .high .headerInit
      · rw [onCapture_initiator hs hy]
        refine .inr ⟨rfl, ?_⟩
        rintro _ ⟨⟩
        rcases hy with rfl | rfl | rfl
        · rfl
        · rfl
        · have hpos : e.tx.buffer.pos < 4 := (h.busy _ hs).2
          simp only [Initiator.judged]
          omega
      · rw [onCapture_deaf hs hy]
        exact .inl ⟨hs, rfl⟩
    | _ =>
      have hx := e.onCapture_hears t
      generalize (e.onCapture t).engine = d at hx
      cases hx with
      | same => exact .inl ⟨hs, rfl⟩
      | quit => exact .inr ⟨not_speaks_quit e, fun s hs => by cases hs⟩
      | opens | goes => exact .inr ⟨rfl, fun s hs => by cases hs⟩
  | deadline => exact absurd rfl (hc _)

/-- A deadline of an engine that is not in the middle of an attempt nor about to begin one. -/
theorem waits_onTimeout (hq : e.state.speaks = false) (hs : e.state ≠ .initiator .freeTime) (line : Reading) :
    (e.onTimeout line).engine.state.speaks = false ∧ (e.onTimeout line).engine.tx.resends = e.tx.resends := by
  have away : ∀ u, e.state ≠ .initiator u := fun u hu => by
    rcases Decidable.em (u = .freeTime) with rfl | hu'
    · exact hs hu
    · rw [speaks_iff.2 ⟨u, hu, hu'⟩] at hq
      cases hq
  have hx := e.onTimeout_lapses line
  generalize (e.onTimeout line).engine = d at hx
  cases hx with
  | same => exact ⟨hq, rfl⟩
  | quit => exact ⟨not_speaks_quit e, rfl⟩
  | ended h | again h => exact absurd h (away _)
  | goes h => exact absurd h (away _)
  | answers => exact ⟨rfl, rfl⟩

/-- A block has been judged, and the frame goes on: with the next block or with another attempt. -/
theorem Trying.go_on (h : e.Trying m .ackVerify slots rest) (hs : e.Steady) (he : e.held = some m) (line : Reading)
    (hp : (e.onTimeout line).engine.isSending = true) : (e.onTimeout line).engine.Tally m (slots :: rest) := by
  have hst := h.state
  obtain ⟨r, older, rfl, holder, hacked⟩ := h.lastSlot rfl
  obtain ⟨hbusy, hc⟩ := hs.busy _ hst
  have hlen : (r :: older).length = e.tx.buffer.pos / 8 := h.length
  obtain ⟨h0, h1, h2⟩ : e.tx.buffer.pos % 8 = 0 ∧ 0 < e.tx.buffer.pos ∧ e.tx.buffer.pos ≤ 8 * e.tx.length := hc
  cases ha : e.tx.acked with
  | true =>
    have hall : m.refuses (r :: older) = false := by rw [Message.refuses_cons, ← hacked, ha, holder]; rfl
    cases hl : e.tx.isLast with
    | true =>
      rw [onTimeout_sent hst ha hl] at hp
      cases hp
    | false =>
      rw [onTimeout_acked hst ha hl]
      exact .trying ⟨rfl, by decide, h.counted, h.spent, hlen, fun _ => hall, fun hv => by cases hv⟩
  | false =>
    rw [ha] at hacked
    have hrefused : m.refuses (r :: older) = true := by rw [Message.refuses_cons, ← hacked]; rfl
    by_cases hr : e.tx.resends < Outgoing.maxResends
    · rw [onTimeout_resend hst ha hr]
      refine .waits rfl ?_ fun x hx => ?_
      · rw [List.countP_cons, if_pos hrefused, ← h.counted]
      · rcases List.mem_cons.1 hx with rfl | hx
        · have hm : m.length = e.tx.length := by
            rw [held, if_pos hbusy] at he
            rw [← Option.some.inj he, Outgoing.length_message]
          exact .inr ⟨by omega, r, older, rfl, hacked.symm, Message.refuses_eq_false.1 holder⟩
        · exact h.spent x hx
    · rw [onTimeout_failed hst ha hr] at hp
      cases hp

theorem Trying.onTimeout (h : e.Trying m s slots rest) (hs : e.Steady) (he : e.held = some m) (line : Reading)
    (hp : (e.onTimeout line).engine.isSending = true) :
    (e.onTimeout line).engine.Tally m (Turn.tries (slots :: rest) ⟨e, .timeout line⟩) := by
  have hst := h.state
  obtain ⟨hbusy, hc⟩ := hs.busy _ hst
  have hbegins : Turn.begins ⟨e, .timeout line⟩ = false :=
    not_begins hs fun hfree => h.speaks (State.initiator.inj (hst.symm.trans hfree))
  by_cases hread : s = .ackHigh
  · subst hread
    have hbroadcast : e.tx.isBroadcast = m.destination.isBroadcast := by
      rw [held, if_pos hbusy] at he
      rw [Outgoing.isBroadcast_eq hbusy, Option.some.inj he]
    have htries : Turn.tries (slots :: rest) ⟨e, .timeout line⟩ = (line :: slots) :: rest := by
      have hsample : Turn.sample? ⟨e, .timeout line⟩ = some line := if_pos hst
      rw [Turn.tries, hbegins, hsample]
      rfl
    rw [htries, onTimeout_ackHigh hst]
    refine .trying ⟨rfl, by decide, h.counted, h.spent, ?_, fun hv => absurd rfl hv, fun _ => ?_⟩
    · have hlen : slots.length = e.tx.buffer.pos / 8 - 1 := h.length
      obtain ⟨h0, h1, -⟩ : e.tx.buffer.pos % 8 = 0 ∧ 0 < e.tx.buffer.pos ∧ _ := hc
      show slots.length + 1 = e.tx.buffer.pos / 8
      omega
    · exact ⟨line, slots, rfl, h.acks (by decide), by rw [Message.acks, ← hbroadcast]⟩
  rw [tries_same rfl hbegins (sample?_of_ne fun ha => hread (State.initiator.inj (hst.symm.trans ha)))]
  by_cases hv : s = .ackVerify
  · subst hv
    exact h.go_on hs he line hp
  have hacks := h.acks hv
  have next : ∀ {d : Engine} {u : Initiator}, d.state = .initiator u → u ≠ .freeTime → u ≠ .ackVerify →
      d.tx.resends = e.tx.resends → u.judged d.tx.buffer.pos = s.judged e.tx.buffer.pos →
      d.Tally m (slots :: rest) := fun hu huf huv hr hj =>
    .trying ⟨hu, huf, hr.trans h.counted, h.spent, h.length.trans hj.symm, fun _ => hacks, fun ha => absurd ha huv⟩
  cases s with
  | freeTime => exact absurd rfl h.speaks
  | startLow =>
    rw [onTimeout_startLow hst]
    exact next rfl (by decide) (by decide) rfl rfl
  | startHigh =>
    rw [onTimeout_startHigh hst]
    have hpos : e.tx.buffer.pos = 0 := hc
    exact next rfl (by decide) (by decide) rfl (by simp only [Initiator.judged, hpos])
  | low f =>
    rw [onTimeout_low hst]
    exact next rfl (by simp) (by simp) rfl (by cases f <;> rfl)
  | high f =>
    by_cases hfe : f = .eom
    · subst hfe
      rw [onTimeout_high_eom hst]
      exact next rfl (by decide) (by decide) rfl rfl
    · rw [(hs.fit (by simp [hst])).onTimeout_high hst hfe]
      exact next rfl (by simp) (by simp) rfl (judged_next hc hfe (Outgoing.length_pos hbusy) hs.tx.length_le)
  | ackLow =>
    rw [onTimeout_ackLow hst]
    exact next rfl (by decide) (by decide) rfl rfl
  | ackHigh => exact absurd rfl hread
  | ackVerify => exact absurd rfl hv

theorem Tally.after (h : e.Tally m all) (hs : e.Steady) (he : e.held = some m) (c : Call)
    (hm : (e.after c).held = some m) : (e.after c).Tally m (Turn.tries all ⟨e, c⟩) := by
  have hnot : Turn.accepts ⟨e, c⟩ = false := by
    cases Turn.fate hs c with
    | taken _ _ _ hn => rw [show e.held = none from hn] at he; cases he
    | ended ha | dropped ha | kept ha => exact ha
  have hp : e.isSending = true := by rw [← isSome_held, he]; rfl
  have hp' : (e.after c).isSending = true := by rw [← isSome_held, hm]; rfl
  by_cases hc : ∃ line, c = .timeout line
  · obtain ⟨line, rfl⟩ := hc
    cases h with
    | waits hq hcount hall =>
      by_cases hfree : e.state = .initiator .freeTime
      · have hbegins : Turn.begins ⟨e, .timeout line⟩ = true :=
          begins_iff.2 ⟨by rw [hfree]; simp, by rw [Engine.after, answer, onTimeout_freeTime hfree]⟩
        have htries : Turn.tries all ⟨e, .timeout line⟩ = [] :: all := by
          rw [Turn.tries, hnot, hbegins]
          rfl
        rw [htries]
        show (e.onTimeout line).engine.Tally m _
        rw [onTimeout_freeTime hfree]
        exact .trying ⟨rfl, by decide, hcount, hall, rfl, fun _ => rfl, fun hv => by cases hv⟩
      · have hread : e.state ≠ .initiator .ackHigh := fun hs => by rw [hs] at hq; cases hq
        rw [tries_same hnot (not_begins hs hfree) (sample?_of_ne hread)]
        obtain ⟨hquiet, hsame⟩ := waits_onTimeout hq hfree line
        exact .waits hquiet (hsame.trans hcount) hall
    | trying h => exact h.onTimeout hs he line hp'
  · have hc : ∀ line, c ≠ .timeout line := fun line hl => hc ⟨line, hl⟩
    have hnone : Turn.begins ⟨e, c⟩ = false := by
      rw [← Bool.not_eq_true, begins_iff]
      rintro ⟨hne, hstart⟩
      obtain ⟨line, hl, -⟩ := startLow_entered hs hne hstart
      exact hc line hl
    rw [tries_same hnot hnone (sample?_eq_none hc)]
    obtain ⟨hresends, ⟨hst', htx⟩ | ⟨hquiet, hzero⟩⟩ := attempt_after_calm hs hp hc hp'
    · cases h with
      | waits hq hcount hall => exact .waits (by rw [hst']; exact hq) (hresends.trans hcount) hall
      | trying h =>
        exact .trying ⟨hst'.trans h.state, h.speaks, hresends.trans h.counted, h.spent, by rw [htx]; exact h.length,
          h.acks, by rw [htx]; exact h.lastSlot⟩
    · cases h with
      | waits hq hcount hall => exact .waits hquiet (hresends.trans hcount) hall
      | @trying s slots rest h =>
        have hempty : slots = [] := List.length_eq_zero_iff.1 (h.length.trans (hzero s h.state))
        subst hempty
        refine .waits hquiet (hresends.trans h.counted) fun x hx => ?_
        rcases List.mem_cons.1 hx with rfl | hx
        · exact .inl rfl
        · exact h.spent x hx

/-- By induction on the calls: the attempts that a history tells of are those of the frame that the engine holds. -/
theorem foldl_tries (h : e.Steady) (ht : ∀ m, e.held = some m → e.Tally m all) (calls : List Call) :
    ∀ m, (e.run calls).held = some m → (e.run calls).Tally m ((e.turns calls).foldl Turn.tries all) := by
  induction calls generalizing e all with
  | nil => exact ht
  | cons c rest ih =>
    refine ih (h.after c) fun m hm => ?_
    cases Turn.fate h c with
    | taken ha => exact Tally.taken h ha
    | ended _ _ _ _ hn | dropped _ _ _ _ hn =>
      rw [show (e.after c).held = none from hn] at hm
      cases hm
    | kept _ _ _ hk =>
      have he : e.held = some m := hk.symm.trans hm
      exact (ht m he).after h he c hm

theorem tally_run {calls : List Call} (h : (({} : Engine).run calls).held = some m) :
    (({} : Engine).run calls).Tally m (tries (({} : Engine).turns calls)) :=
  foldl_tries steady_new (fun m hm => by cases hm) calls m h

theorem no_start_bit (h : e.Steady) (hp : e.isSending = false) {calls : List Call}
    (hn : ∀ t ∈ e.turns calls, t.accepts = false) : ∀ t ∈ e.turns calls, t.begins = false := by
  induction calls generalizing e with
  | nil => exact fun t ht => by cases ht
  | cons c rest ih =>
    intro t ht
    rcases List.mem_cons.1 ht with rfl | ht
    · refine not_begins h fun hs => ?_
      rw [(h.busy _ hs).1] at hp
      cases hp
    · refine ih (h.after c) ?_ (fun t ht => hn t (List.mem_cons_of_mem _ ht)) t ht
      have hnone := held_of_not_sending hp
      rw [← isSome_held]
      cases Turn.fate h c with
      | taken ha =>
        rw [hn _ List.mem_cons_self] at ha
        cases ha
      | ended _ _ _ _ hgone | dropped _ _ _ _ hgone => exact congrArg Option.isSome hgone
      | kept _ _ _ hk => exact congrArg Option.isSome (hk.trans hnone)

/-! What the slots say. -/

theorem length_of_held (he : e.held = some m) : m.length = e.tx.length := by
  unfold held at he
  split at he
  · rw [← Option.some.inj he, Outgoing.length_message]
  · cases he

/-- Where the last block has been judged, the engine knows what its slot gave, and whether there is a next one. -/
theorem Trying.judged (h : e.Trying m .ackVerify slots rest) (hs : e.Steady) (he : e.held = some m) :
    (e.tx.acked = !m.refuses slots) ∧ (e.tx.isLast = true ↔ slots.length = m.length) := by
  obtain ⟨r, older, rfl, holder, hacked⟩ := h.lastSlot rfl
  refine ⟨by rw [hacked, Message.refuses_cons, holder, Bool.or_false, Bool.not_not], ?_⟩
  have hlen : (r :: older).length = e.tx.buffer.pos / 8 := h.length
  obtain ⟨h0, h1, -⟩ : e.tx.buffer.pos % 8 = 0 ∧ 0 < e.tx.buffer.pos ∧ _ := (hs.busy _ h.state).2
  rw [length_of_held he, Outgoing.isLast, BitBuffer.atEnd, beq_iff_eq]
  omega

theorem Trying.length_lt (h : e.Trying m s slots rest) (hs : e.Steady) (he : e.held = some m) (hv : s ≠ .ackVerify) :
    slots.length < m.length := by
  rw [h.length, length_of_held he]
  exact judged_lt hs h.state hv

theorem Trying.verdict_eq (h : e.Trying m .ackVerify slots rest) (hs : e.Steady) (he : e.held = some m) :
    e.verdict = if m.refuses slots then if rest.countP m.refuses < Outgoing.maxResends then none else some .sendFailed
      else if slots.length = m.length then some .sendOk else none := by
  obtain ⟨hacked, hlast⟩ := h.judged hs he
  rw [verdict, h.state, ← h.counted]
  simp only [hacked, ← hlast]
  cases m.refuses slots <;> rfl

theorem Trying.next_eq (h : e.Trying m .ackVerify slots rest) (hs : e.Steady) (he : e.held = some m) (line : Reading) :
    (e.after (.timeout line)).state =
      if m.refuses slots then if rest.countP m.refuses < Outgoing.maxResends then .initiator .freeTime else .idle
      else if slots.length = m.length then .idle else .initiator (.low .data) := by
  obtain ⟨hacked, hlast⟩ := h.judged hs he
  show (e.onTimeout line).engine.state = _
  rw [← h.counted]
  cases hr : m.refuses slots with
  | false =>
    rw [hr] at hacked
    by_cases hl : slots.length = m.length
    · rw [onTimeout_sent h.state hacked (hlast.2 hl), if_neg Bool.false_ne_true, if_pos hl]
      rfl
    · have hl' : e.tx.isLast = false := by rw [← Bool.not_eq_true, hlast]; exact hl
      rw [onTimeout_acked h.state hacked hl', if_neg Bool.false_ne_true, if_neg hl]
  | true =>
    rw [hr] at hacked
    rw [if_pos rfl]
    by_cases hn : e.tx.resends < Outgoing.maxResends
    · rw [onTimeout_resend h.state hacked hn, if_pos hn]
    · rw [onTimeout_failed h.state hacked hn, if_neg hn]
      rfl

theorem Trying.sound (h : e.Trying m s slots rest) (hs : e.Steady) (he : e.held = some m) :
    slots.length ≤ m.length ∧ ∀ r ∈ slots.tail, m.acks r = true := by
  by_cases hv : s = .ackVerify
  · subst hv
    have hpos : slots.length = e.tx.buffer.pos / 8 := h.length
    have hend : e.tx.buffer.pos ≤ 8 * e.tx.length := (hs.busy _ h.state).2.2.2
    obtain ⟨r, older, rfl, holder, -⟩ := h.lastSlot rfl
    rw [length_of_held he]
    exact ⟨by omega, Message.refuses_eq_false.1 holder⟩
  · refine ⟨Nat.le_of_lt (h.length_lt hs he hv), fun r hr => ?_⟩
    exact Message.refuses_eq_false.1 (h.acks hv) r (List.mem_of_mem_tail hr)

namespace Tally

theorem sound (h : e.Tally m all) (hs : e.Steady) (he : e.held = some m) :
    (∀ slots ∈ all, slots.length ≤ m.length ∧ ∀ r ∈ slots.tail, m.acks r = true) ∧
      ∀ slots ∈ all.tail, slots = [] ∨ m.refuses slots = true := by
  cases h with
  | waits _ _ hall =>
    exact ⟨fun slots hx => (hall slots hx).tail, fun slots hx => (hall slots (List.mem_of_mem_tail hx)).refuses⟩
  | @trying s slots rest h =>
    refine ⟨fun x hx => ?_, fun x hx => (h.spent x hx).refuses⟩
    rcases List.mem_cons.1 hx with rfl | hx
    · exact h.sound hs he
    · exact (h.spent x hx).tail

theorem refused_le (h : e.Tally m all) (hs : e.Steady) : all.countP m.refuses ≤ 6 := by
  have hmax : e.tx.resends ≤ 5 := hs.tx.resends_le
  cases h with
  | waits _ hcount => omega
  | trying h =>
    have := h.counted
    rw [List.countP_cons]
    split <;> omega

/-- Only where a block has just been judged anything comes of the frame. -/
theorem verdict_ne (h : e.state ≠ .initiator .ackVerify) : e.verdict ≠ some .sendOk ∧ e.verdict ≠ some .sendFailed := by
  have := verdict_of_ne_ackVerify h
  rw [Bool.or_eq_false_iff, beq_eq_false_iff_ne, beq_eq_false_iff_ne] at this
  exact this

theorem sendOk_iff (h : e.Tally m all) (hs : e.Steady) (he : e.held = some m) (hm : m ≠ []) :
    e.verdict = some .sendOk ↔ ∃ slots ∈ all.head?, m.acknowledged slots = true := by
  cases h with
  | waits hq _ hall =>
    refine iff_of_false (verdict_ne fun hv => by rw [hv] at hq; cases hq).1 ?_
    rintro ⟨slots, hhead, hack⟩
    rw [(hall slots (List.mem_of_mem_head? hhead)).not_acknowledged hm] at hack
    cases hack
  | @trying s slots rest h =>
    simp only [List.head?_cons, Option.mem_some_iff, exists_eq_left', Message.acknowledged_iff]
    by_cases hv : s = .ackVerify
    · subst hv
      rw [h.verdict_eq hs he]
      cases m.refuses slots with
      | false => by_cases hl : slots.length = m.length <;> simp [hl]
      | true => by_cases hn : rest.countP m.refuses < Outgoing.maxResends <;> simp [hn]
    · refine iff_of_false (verdict_ne fun ha => hv ?_).1 fun hl => ?_
      · rw [h.state] at ha
        exact State.initiator.inj ha
      · exact Nat.ne_of_lt (h.length_lt hs he hv) hl.1

theorem sendFailed_iff (h : e.Tally m all) (hs : e.Steady) (he : e.held = some m) :
    e.verdict = some .sendFailed ↔ all.countP m.refuses = 6 := by
  have hmax : e.tx.resends ≤ 5 := hs.tx.resends_le
  cases h with
  | waits hq hcount =>
    exact iff_of_false (verdict_ne fun hv => by rw [hv] at hq; cases hq).2 (by omega)
  | @trying s slots rest h =>
    have hcount := h.counted
    rw [List.countP_cons]
    by_cases hv : s = .ackVerify
    · subst hv
      rw [h.verdict_eq hs he, show Outgoing.maxResends = 5 from rfl]
      cases m.refuses slots with
      | false =>
        refine iff_of_false ?_ (by rw [if_neg Bool.false_ne_true]; omega)
        by_cases hl : slots.length = m.length <;> simp [hl]
      | true =>
        by_cases hn : rest.countP m.refuses < 5
        · refine iff_of_false (by simp [hn]) (by rw [if_pos rfl]; omega)
        · refine iff_of_true (by simp [hn]) (by rw [if_pos rfl]; omega)
    · rw [h.acks hv, if_neg Bool.false_ne_true]
      refine iff_of_false (verdict_ne fun ha => hv ?_).2 (by omega)
      rw [h.state] at ha
      exact State.initiator.inj ha

end Tally

/-- Only a deadline tells what has become of a frame. -/
theorem reply_ended_iff {x : Completion} (hx : ∀ m, x ≠ .received m) :
    Turn.reply ⟨e, c⟩ = .completion (some x) ↔ (∃ line, c = .timeout line) ∧ e.verdict = some x := by
  have hy := e.answers c
  rw [Turn.reply]
  generalize e.answer c = y at hy
  cases hy with
  | @edge t =>
    refine iff_of_false (fun h => ?_) fun h => by simp at h
    obtain ⟨m, hm⟩ := outcome_onCapture_ne (Reply.completion.inj h)
    exact hx m hm
  | @deadline line => simp [outcome_onTimeout]
  | refuses hev =>
    refine iff_of_false (fun h => by cases h) ?_
    rintro ⟨⟨line, rfl⟩, -⟩
    cases hev
  | _ => exact iff_of_false (fun h => by cases h) fun h => by simp at h

/-- Over any history, the frame that is open now: an attempt ends with the first slot that gives no ACK or with
the last block, and is broken off by others only before its first slot. The frame has gone through at the end of
the first attempt in which each block was acknowledged, and has failed at the end of the sixth that was refused,
however many others came between. After that no start bit is begun for it. -/
theorem fate_of_slots {calls : List Call} (h : pending (({} : Engine).turns calls) = some m) (c : Call) :
    let e := ({} : Engine).run calls
    let all := tries (({} : Engine).turns calls)
    ((∀ slots ∈ all, slots.length ≤ m.length ∧ ∀ r ∈ slots.tail, m.acks r = true) ∧
      (∀ slots ∈ all.tail, slots = [] ∨ m.refuses slots = true)) ∧
    (Turn.reply ⟨e, c⟩ = .completion (some .sendOk) ↔
      (∃ line, c = .timeout line) ∧ ∃ slots ∈ all.head?, m.acknowledged slots = true) ∧
    (Turn.reply ⟨e, c⟩ = .completion (some .sendFailed) ↔
      (∃ line, c = .timeout line) ∧ all.countP m.refuses = 6) ∧
    all.countP m.refuses ≤ 6 ∧
    (e.state = .initiator .ackVerify → ∀ line, ∃ slots ∈ all.head?, (e.after (.timeout line)).state =
      if m.refuses slots then if all.countP m.refuses = 6 then .idle else .initiator .freeTime
      else if m.acknowledged slots then .idle else .initiator (.low .data)) ∧
    (Turn.ends ⟨e, c⟩ = true → ∀ rest, (∀ t ∈ (e.after c).turns rest, t.accepts = false) →
      ∀ t ∈ (e.after c).turns rest, t.begins = false) := by
  intro e all
  have hs : e.Steady := steady_run calls
  have he : e.held = some m := (pending_turns calls).symm.trans h
  have ht : e.Tally m all := tally_run he
  have hp : e.isSending = true := by rw [← isSome_held, he]; rfl
  have hm : m ≠ [] := by
    rw [held, if_pos hp] at he
    exact Option.some.inj he ▸ Outgoing.message_ne_nil hp
  refine ⟨ht.sound hs he, ?_, ?_, ht.refused_le hs, fun hv line => ?_, fun hends rest hn => ?_⟩
  · rw [reply_ended_iff (fun _ => by simp), ht.sendOk_iff hs he hm]
  · rw [reply_ended_iff (fun _ => by simp), ht.sendFailed_iff hs he]
  · generalize all = l at ht
    cases ht with
    | waits hq =>
      rw [hv] at hq
      cases hq
    | @trying s slots rest ht =>
      obtain rfl : s = .ackVerify := State.initiator.inj (ht.state.symm.trans hv)
      refine ⟨slots, rfl, ?_⟩
      have hcount := ht.counted
      have hmax : e.tx.resends ≤ 5 := hs.tx.resends_le
      rw [ht.next_eq hs he, List.countP_cons, show Outgoing.maxResends = 5 from rfl]
      cases hr : m.refuses slots with
      | false => simp [Message.acknowledged_iff, hr]
      | true =>
        by_cases hn : rest.countP m.refuses < 5
        · rw [if_pos rfl, if_pos hn, if_pos rfl, if_neg (by simp only [if_pos]; omega)]
        · rw [if_pos rfl, if_neg hn, if_pos rfl, if_pos (by simp only [if_pos]; omega)]
  · refine no_start_bit (hs.after c) ?_ hn
    rw [← isSome_held]
    cases Turn.fate hs c with
    | ended _ _ _ _ hgone => exact congrArg Option.isSome hgone
    | taken _ hno | dropped _ hno | kept _ hno =>
      rw [hno] at hends
      cases hends

/-- Six refusals of a poll. After the second another one speaks, so that an attempt breaks off at its start bit. -/
theorem fate_of_slots_refused :
    let attempt : List Call := .replicate 24 (.timeout (some .high))
    let deferral : List Call := [.timeout none, .timeout none, .capture 0, .capture 100, .timeout none]
    let calls := [.setEnabled true, .send [4]] ++ attempt ++ attempt ++ deferral ++ attempt ++ attempt ++ attempt ++
      attempt.drop 1
    let e := ({} : Engine).run calls
    pending (({} : Engine).turns calls) = some [4] ∧
      tries (({} : Engine).turns calls) =
        [[some .high], [some .high], [some .high], [some .high], [], [some .high], [some .high]] ∧
      Turn.reply ⟨e, .timeout none⟩ = .completion (some .sendFailed) ∧
      Turn.reply ⟨e, .timeout none⟩ ≠ .completion (some .sendOk) := by
  intro attempt deferral calls e
  have hp : pending (({} : Engine).turns calls) = some [4] := by decide +kernel
  have htries : tries (({} : Engine).turns calls) =
      [[some .high], [some .high], [some .high], [some .high], [], [some .high], [some .high]] := by decide +kernel
  obtain ⟨-, hok, hfailed, -⟩ := fate_of_slots hp (.timeout none)
  rw [htries] at hok hfailed
  refine ⟨hp, htries, hfailed.2 ⟨⟨none, rfl⟩, by decide⟩, fun h => ?_⟩
  obtain ⟨-, slots, ⟨⟩, hall⟩ := hok.1 h
  revert hall
  decide

end Engine
end HdmiCec
