import HdmiCec.Proofs.Engine.Account

/-! An engine left alone. While nothing but deadlines comes, an engine that is on works off the frame it follows
and then its own: each deadline leaves one less of those that there can be at most (`onTimeout_deadlines_lt`),
whatever the line reads. So it comes to rest within a bound that depends on the length of its frame alone
(`silence_drains`). -/
namespace HdmiCec

namespace Outgoing

/-- Deadlines of one whole attempt: the free time and the start bit, then two for each bit of a block and three
for its ACK slot. -/
def attempt (x : Outgoing) : Nat := 3 + 21 * x.length

def ahead (x : Outgoing) : Nat := 2 * (8 * x.length - x.buffer.pos) + 5 * (x.length - x.buffer.pos / 8)

end Outgoing

/-- How many deadlines there are at most to the end of the attempt. After a refusal the cursor stays where it was
until the next start bit. -/
def Initiator.deadlines (s : Initiator) (x : Outgoing) : Nat :=
  match s with
  | freeTime => x.attempt
  | startLow => x.ahead + 2
  | startHigh => x.ahead + 1
  | low .eom => x.ahead + 5
  | high .eom => x.ahead + 4
  | low _ => x.ahead
  | high _ => x.ahead - 1
  | ackLow => x.ahead + 3
  | ackHigh => x.ahead + 2
  | ackVerify => x.ahead + 1

def Follower.deadlines : Follower → Nat
  | ackLow => 3
  | ackVerify => 2
  | _ => 1

namespace Engine

/-- How many deadlines there are at most before an engine is idle, if nothing else comes. -/
def deadlines (e : Engine) : Nat :=
  match e.state with
  | .disabled | .idle => 0
  | .initiator s => s.deadlines e.tx + (Outgoing.maxResends - e.tx.resends) * e.tx.attempt
  | .follower s => s.deadlines +
    if e.isSending then (Outgoing.maxResends + 1 - e.tx.resends) * e.tx.attempt else 0

def Call.silence (line : Nat → Reading) (k : Nat) : List Call := (List.range k).map fun i => .timeout (line i)

end Engine

theorem Follower.deadlines_bounds (s : Follower) : 0 < s.deadlines ∧ s.deadlines ≤ 3 := by
  cases s <;> simp [deadlines]

namespace Initiator

variable {x : Outgoing} {f : BitKind}

theorem deadlines_low (h : f ≠ .eom) : (low f).deadlines x = x.ahead := by
  cases f <;> first | rfl | exact absurd rfl h

theorem deadlines_high (h : f ≠ .eom) : (high f).deadlines x = x.ahead - 1 := by
  cases f <;> first | rfl | exact absurd rfl h

/-- With the next bit there is one deadline less, be it the EOM bit after the last bit of a byte. -/
theorem deadlines_next (h : f.Within x.buffer.pos x.length) (hf : f ≠ .eom) (hn : 0 < x.length)
    (hm : x.length ≤ Message.maxLength) :
    (low (f.next x.buffer.advance)).deadlines { x with buffer := x.buffer.advance } < (high f).deadlines x := by
  have hlt := h.pos_lt hf hn
  have hpos := BitBuffer.pos_advance (h.pos_lt_capacity hf hn hm)
  have hnext := h.next hf hn hm
  rw [deadlines_high hf]
  rw [hpos] at hnext
  cases hg : f.next x.buffer.advance with
  | eom =>
    rw [hg] at hnext
    simp only [BitKind.Within] at hnext
    simp only [deadlines, Outgoing.ahead, hpos]
    omega
  | headerInit | headerDest | data =>
    simp only [deadlines, Outgoing.ahead, hpos]
    omega

/-- No attempt has more deadlines ahead than a whole one. -/
theorem deadlines_le {s : Initiator} (h : s.Cursor x) (hn : 0 < x.length) : s.deadlines x ≤ x.attempt := by
  have within : ∀ g : BitKind, g.Within x.buffer.pos x.length → x.ahead + (if g = .eom then 5 else 0) ≤ 21 * x.length := by
    intro g hg
    cases g <;> simp only [BitKind.Within] at hg <;> simp only [Outgoing.ahead, reduceCtorEq, if_false, if_true] <;> omega
  cases s with
  | freeTime => exact Nat.le_refl _
  | startLow | startHigh =>
    simp only [Cursor] at h
    simp only [deadlines, Outgoing.ahead, Outgoing.attempt, h]
    omega
  | low f | high f =>
    have := within f h
    cases f <;> simp only [deadlines, Outgoing.attempt, reduceCtorEq, if_false, if_true] at this ⊢ <;> omega
  | ackLow | ackHigh | ackVerify =>
    have := within .eom h
    simp only [deadlines, Outgoing.attempt, if_true] at this ⊢
    omega

end Initiator

namespace Engine

variable {e d : Engine} {s u : Initiator} {line : Reading}

theorem deadlines_of_initiator (h : e.state = .initiator s) :
    e.deadlines = s.deadlines e.tx + (Outgoing.maxResends - e.tx.resends) * e.tx.attempt := by
  simp only [deadlines, h]

theorem deadlines_of_follower {s : Follower} (h : e.state = .follower s) : e.deadlines = s.deadlines +
    if e.isSending then (Outgoing.maxResends + 1 - e.tx.resends) * e.tx.attempt else 0 := by
  simp only [deadlines, h]

/-- One more attempt is what the frame of an engine that gives up what it followed may take. -/
theorem deadlines_quit (h : e.tx.resends ≤ Outgoing.maxResends) : e.quit.deadlines =
    if e.isSending then (Outgoing.maxResends + 1 - e.tx.resends) * e.tx.attempt else 0 := by
  rcases e.quit_state with ⟨hq, hp⟩ | ⟨hq, hp⟩
  · simp only [deadlines, hq, hp, Bool.false_eq_true, if_false]
  · rw [deadlines_of_initiator hq, hp, if_pos rfl, Nat.succ_sub h, Nat.succ_mul, Nat.add_comm]
    rfl

theorem deadlines_lt_of_leads (h : e.state = .initiator s) {x : Outgoing} (hx : x.Same e.tx)
    (hlt : u.deadlines x < s.deadlines e.tx) : ({ e with state := .initiator u, tx := x } : Engine).deadlines < e.deadlines := by
  rw [deadlines_of_initiator h, deadlines_of_initiator rfl, Outgoing.attempt, hx.length, hx.resends]
  exact Nat.add_lt_add_right hlt _

theorem deadlines_lt_of_ended (h : e.state = .initiator .ackVerify) :
    ({ e with tx := e.tx.finish } : Engine).quit.deadlines < e.deadlines := by
  rw [deadlines_quit (Nat.zero_le _), deadlines_of_initiator h]
  exact Nat.lt_of_lt_of_le (Nat.succ_pos _) (Nat.le_add_right _ _)

theorem deadlines_lt_of_again (h : e.state = .initiator .ackVerify) (hr : e.tx.resends < Outgoing.maxResends) :
    ({ e with state := .initiator .freeTime, tx := { e.tx with resends := e.tx.resends + 1 } } : Engine).deadlines <
      e.deadlines := by
  obtain ⟨n, hn⟩ : ∃ n, Outgoing.maxResends - e.tx.resends = n + 1 := ⟨Outgoing.maxResends - e.tx.resends - 1, by omega⟩
  have hn' : Outgoing.maxResends - (e.tx.resends + 1) = n := by omega
  rw [deadlines_of_initiator h, deadlines_of_initiator rfl, hn]
  show e.tx.attempt + (Outgoing.maxResends - (e.tx.resends + 1)) * e.tx.attempt <
    e.tx.ahead + 1 + (n + 1) * e.tx.attempt
  rw [hn', Nat.succ_mul]
  omega

theorem onTimeout_deadlines_lt_initiator (hf : e.Steady) (h : e.state = .initiator s) (line : Reading) :
    (e.onTimeout line).engine.deadlines < e.deadlines := by
  obtain ⟨hp, hc⟩ := hf.busy s h
  have hn := Outgoing.length_pos hp
  cases s with
  | freeTime =>
    rw [onTimeout_freeTime h]
    refine deadlines_lt_of_leads h ⟨rfl, rfl, rfl⟩ ?_
    show 2 * (8 * e.tx.length - 0) + 5 * (e.tx.length - 0 / 8) + 2 < 3 + 21 * e.tx.length
    omega
  | startLow =>
    rw [onTimeout_startLow h]
    exact deadlines_lt_of_leads h .refl (Nat.lt_succ_self _)
  | startHigh =>
    rw [onTimeout_startHigh h]
    exact deadlines_lt_of_leads h .refl (Nat.lt_succ_self _)
  | low f =>
    rw [onTimeout_low h]
    refine deadlines_lt_of_leads h .refl ?_
    by_cases hfe : f = .eom
    · subst hfe
      exact Nat.lt_succ_self _
    · have hlt := BitKind.Within.pos_lt hc hfe hn
      rw [Initiator.deadlines_high hfe, Initiator.deadlines_low hfe, Outgoing.ahead]
      omega
  | high f =>
    by_cases hfe : f = .eom
    · subst hfe
      rw [onTimeout_high_eom h]
      exact deadlines_lt_of_leads h .refl (Nat.lt_succ_self _)
    · rw [(hf.fit (by simp [h])).onTimeout_high h hfe]
      exact deadlines_lt_of_leads h ⟨rfl, rfl, rfl⟩ (Initiator.deadlines_next hc hfe hn hf.tx.length_le)
  | ackLow =>
    rw [onTimeout_ackLow h]
    exact deadlines_lt_of_leads h .refl (Nat.lt_succ_self _)
  | ackHigh =>
    rw [onTimeout_ackHigh h]
    exact deadlines_lt_of_leads h ⟨rfl, rfl, rfl⟩ (Nat.lt_succ_self _)
  | ackVerify =>
    cases ha : e.tx.acked with
    | true =>
      cases hl : e.tx.isLast with
      | true =>
        rw [onTimeout_sent h ha hl]
        exact deadlines_lt_of_ended h
      | false =>
        rw [onTimeout_acked h ha hl]
        exact deadlines_lt_of_leads h .refl (Nat.lt_succ_self _)
    | false =>
      by_cases hr : e.tx.resends < Outgoing.maxResends
      · rw [onTimeout_resend h ha hr]
        exact deadlines_lt_of_again h hr
      · rw [onTimeout_failed h ha hr]
        exact deadlines_lt_of_ended h

theorem onTimeout_deadlines_lt_follower (hf : e.Steady) {s : Follower} (h : e.state = .follower s) (line : Reading) :
    (e.onTimeout line).engine.deadlines < e.deadlines := by
  have hquit := deadlines_quit hf.tx.resends_le
  rw [deadlines_of_follower h]
  by_cases h1 : s = .ackLow
  · subst h1
    rw [onTimeout_follower_ackLow h, deadlines_of_follower rfl]
    exact Nat.add_lt_add_right (by decide) _
  by_cases h2 : s = .ackVerify
  · subst h2
    cases hr : e.rx.refused with
    | true =>
      rw [onTimeout_refused h hr, hquit]
      exact Nat.lt_add_of_pos_left (by decide)
    | false =>
      rw [onTimeout_follower_ackVerify h hr, deadlines_of_follower rfl]
      exact Nat.add_lt_add_right (by decide) _
  · rw [onTimeout_follower h h1 h2, hquit]
    exact Nat.lt_add_of_pos_left s.deadlines_bounds.1

/-- Each deadline leaves one less. -/
theorem onTimeout_deadlines_lt (hf : e.Steady) (hd : e.state ≠ .disabled) (hi : e.state ≠ .idle) (line : Reading) :
    (e.onTimeout line).engine.deadlines < e.deadlines := by
  cases hs : e.state with
  | disabled => exact absurd hs hd
  | idle => exact absurd hs hi
  | initiator s => exact onTimeout_deadlines_lt_initiator hf hs line
  | follower s => exact onTimeout_deadlines_lt_follower hf hs line

/-- At most what is left of a follower's own, and six attempts. -/
theorem deadlines_le (hf : e.Steady) : e.deadlines ≤ 3 + 6 * (3 + 21 * e.tx.length) := by
  have hmul : ∀ n, n ≤ 6 → n * e.tx.attempt ≤ 6 * (3 + 21 * e.tx.length) := fun n hn => Nat.mul_le_mul_right _ hn
  cases hs : e.state with
  | disabled | idle =>
    simp only [deadlines, hs]
    exact Nat.zero_le _
  | initiator s =>
    obtain ⟨hp, hc⟩ := hf.busy s hs
    have hone := Initiator.deadlines_le hc (Outgoing.length_pos hp)
    have hall := hmul (Outgoing.maxResends - e.tx.resends + 1) (by simp only [Outgoing.maxResends]; omega)
    rw [Nat.succ_mul] at hall
    rw [deadlines_of_initiator hs]
    omega
  | follower s =>
    have hall := hmul (Outgoing.maxResends + 1 - e.tx.resends) (by simp only [Outgoing.maxResends]; omega)
    have hown := s.deadlines_bounds.2
    rw [deadlines_of_follower hs]
    split <;> omega

theorem silence_succ (line : Nat → Reading) (k : Nat) :
    Call.silence line (k + 1) = .timeout (line 0) :: Call.silence (fun i => line (i + 1)) k := by
  rw [Call.silence, Call.silence, List.range_succ_eq_map, List.map_cons, List.map_map]
  rfl

theorem exists_idle (hf : e.Steady) (hd : e.state ≠ .disabled) (hi : e.state ≠ .idle) {n : Nat} (hn : e.deadlines ≤ n)
    (line : Nat → Reading) : ∃ k ≤ n, (e.run (Call.silence line k)).state = .idle ∧
      (e.run (Call.silence line k)).isSending = false := by
  -- By induction on the deadlines that there can be.
  induction n generalizing e line with
  | zero =>
    have := onTimeout_deadlines_lt hf hd hi none
    omega
  | succ n ih =>
    have hlt := onTimeout_deadlines_lt hf hd hi (line 0)
    have hfit := (hf.fit hi).onTimeout (line 0)
    by_cases hidle : (e.onTimeout (line 0)).engine.state = .idle
    · exact ⟨1, Nat.succ_pos n, hidle, hfit.prompt (.inl hidle)⟩
    · obtain ⟨k, hk, hrest⟩ := ih (hf.onTimeout (line 0)) (onTimeout_state (line 0) hd).1 hidle (by omega)
        fun i => line (i + 1)
      refine ⟨k + 1, Nat.succ_le_succ hk, ?_⟩
      rw [silence_succ]
      exact hrest

theorem call_of_mem_turns {calls : List Call} {t : Turn} (h : t ∈ e.turns calls) : t.call ∈ calls := by
  induction calls generalizing e with
  | nil => cases h
  | cons c rest ih =>
    rcases List.mem_cons.1 h with rfl | h
    · exact List.mem_cons_self
    · exact List.mem_cons_of_mem _ (ih h)

/-- Deadlines alone bring no frame, and do not switch the engine off. -/
theorem silent_turns (line : Nat → Reading) (k : Nat) :
    (e.turns (Call.silence line k)).countP Turn.accepts = 0 ∧ (e.turns (Call.silence line k)).countP Turn.drops = 0 := by
  have hcall : ∀ t ∈ e.turns (Call.silence line k), ∃ i, t.call = .timeout (line i) := fun t ht => by
    obtain ⟨i, -, hi⟩ := List.mem_map.1 (call_of_mem_turns ht)
    exact ⟨i, hi.symm⟩
  refine ⟨List.countP_eq_zero.2 fun t ht => ?_, List.countP_eq_zero.2 fun t ht => ?_⟩
  · obtain ⟨i, hi⟩ := hcall t ht
    simp [Turn.accepts, hi, Call.message?]
  · obtain ⟨i, hi⟩ := hcall t ht
    simp [Turn.drops, hi]

theorem length_pending (calls : List Call) :
    (pending (({} : Engine).turns calls)).elim 0 List.length = (({} : Engine).run calls).tx.length := by
  rw [pending_turns, held]
  split
  · exact Outgoing.length_message _
  · next h =>
    have hnone : (({} : Engine).run calls).tx.length = 0 := by simpa [isSending, Outgoing.isPending] using h
    exact hnone.symm

/-- Whatever an engine has been through: if it is on and not idle, and nothing comes but deadlines, it is idle
without a frame after a number of them that is bounded by the length of its frame, whatever the line reads. If it
has a frame then one result comes of it on the way, and otherwise none. -/
theorem silence_drains {calls : List Call} (hd : (({} : Engine).run calls).state ≠ .disabled)
    (hi : (({} : Engine).run calls).state ≠ .idle) (line : Nat → Reading) :
    let e := ({} : Engine).run calls
    let n := (pending (({} : Engine).turns calls)).elim 0 List.length
    ∃ k ≤ 3 + 6 * (3 + 21 * n), (e.run (Call.silence line k)).state = .idle ∧
      (e.run (Call.silence line k)).isSending = false ∧
      (e.turns (Call.silence line k)).countP Turn.ends = if e.isSending then 1 else 0 := by
  intro e n
  have hf : e.Steady := steady_run calls
  have hn : n = e.tx.length := length_pending calls
  have hbound : e.deadlines ≤ 3 + 6 * (3 + 21 * n) := hn ▸ deadlines_le hf
  obtain ⟨k, hk, hidle, hnone⟩ := exists_idle hf hd hi hbound line
  refine ⟨k, hk, hidle, hnone, ?_⟩
  have hcount := count_accepts hf (Call.silence line k)
  obtain ⟨haccepts, hdrops⟩ := silent_turns (e := e) line k
  rw [haccepts, hdrops, hnone] at hcount
  cases hp : e.isSending <;> simpa [hp] using hcount.symm

/-- A follower that has a header block of its own to send is at the ACK slot of another one, and nobody ever
answers: the bound is met. -/
theorem silence_drains_unanswered :
    let zero : List Call := [.capture 1500, .capture 900]
    let calls : List Call := [.setEnabled true, .capture 0, .submit [4], .capture 3700, .capture 800] ++
      (List.replicate 9 zero).flatten
    let e := ({} : Engine).run calls
    e.state = .follower .ackLow ∧ pending (({} : Engine).turns calls) = some [4] ∧
      (e.run (Call.silence (fun _ => some .high) 146)).state ≠ .idle ∧
      ∃ k ≤ 147, (e.run (Call.silence (fun _ => some .high) k)).state = .idle ∧
        (e.turns (Call.silence (fun _ => some .high) k)).countP Turn.ends = 1 := by
  intro zero calls e
  have hs : e.state = .follower .ackLow := by decide +kernel
  have hpend : pending (({} : Engine).turns calls) = some [4] := by decide +kernel
  have hp : e.isSending = true := by decide +kernel
  have hon : e.state ≠ .disabled := by
    rw [hs]
    simp
  have hbusy : e.state ≠ .idle := by
    rw [hs]
    simp
  obtain ⟨k, hk, hidle, -, hends⟩ := silence_drains hon hbusy fun _ => some .high
  rw [hpend] at hk
  exact ⟨hs, hpend, by decide +kernel, k, hk, hidle, by rw [hends, hp]; rfl⟩

end Engine
end HdmiCec
