import HdmiCec.Proofs.Bus.Mirror

/-! A bus without noise comes to rest by itself (`Quiet.advance`). Every deadline of an initiator
brings it nearer to the end of its last attempt, and every deadline of a follower to its own rest;
only initiators give followers something to do. -/
namespace HdmiCec

def sumOver {α : Type} (f : α → Nat) (l : List α) : Nat := l.foldr (f · + ·) 0

section sumOver

variable {α : Type} {f : α → Nat} {l l' : List α}

theorem sumOver_nil : sumOver f [] = 0 := rfl

theorem sumOver_cons (x : α) : sumOver f (x :: l) = f x + sumOver f l := rfl

theorem sumOver_append : sumOver f (l ++ l') = sumOver f l + sumOver f l' := by
  induction l with
  | nil => simp [sumOver_nil]
  | cons x l ih => rw [List.cons_append, sumOver_cons, sumOver_cons, ih, Nat.add_assoc]

theorem sumOver_eq_zero (h : ∀ x ∈ l, f x = 0) : sumOver f l = 0 := by
  induction l with
  | nil => rfl
  | cons x l ih => rw [sumOver_cons, h x (by simp), ih fun y hy => h y (by simp [hy])]

theorem sumOver_le {n : Nat} (h : ∀ x ∈ l, f x ≤ n) : sumOver f l ≤ n * l.length := by
  induction l with
  | nil => simp [sumOver_nil]
  | cons x l ih =>
    have hx := h x (by simp)
    have hl := ih fun y hy => h y (by simp [hy])
    rw [sumOver_cons, List.length_cons, Nat.mul_succ]
    omega

theorem sumOver_le_sumOver (hl : l'.length = l.length)
    (h : ∀ (j : Nat) x x', l[j]? = some x → l'[j]? = some x' → f x' ≤ f x) : sumOver f l' ≤ sumOver f l := by
  induction l generalizing l' with
  | nil => simp_all
  | cons a l ih =>
    cases l' with
    | nil => simp at hl
    | cons a' l' =>
      have h0 := h 0 a a' rfl rfl
      have hrest := @ih l' (by simpa using hl) fun j x x' hx hx' => h (j + 1) x x' hx hx'
      simp only [sumOver_cons]
      omega

/-- Two sums that differ in one place for certain, and elsewhere in one direction. -/
theorem sumOver_add_le {i : Nat} {y y' : α} (hl : l'.length = l.length) (hy : l[i]? = some y)
    (hy' : l'[i]? = some y')
    (h : ∀ (j : Nat) x x', j ≠ i → l[j]? = some x → l'[j]? = some x' → f x' ≤ f x) :
    sumOver f l' + f y ≤ sumOver f l + f y' := by
  induction l generalizing l' i with
  | nil => simp at hy
  | cons a l ih =>
    cases l' with
    | nil => simp at hl
    | cons a' l' =>
      simp only [sumOver_cons]
      cases i with
      | zero =>
        obtain rfl : a = y := by simpa using hy
        obtain rfl : a' = y' := by simpa using hy'
        have hrest := @sumOver_le_sumOver _ f l l' (by simpa using hl) fun j x x' hx hx' =>
          h (j + 1) x x' (by simp) hx hx'
        omega
      | succ i =>
        have h0 := h 0 a a' (by simp) rfl rfl
        have hrest := @ih l' i (by simpa using hl) (by simpa using hy) (by simpa using hy')
          fun j x x' hj hx hx' => h (j + 1) x x' (by omega) hx hx'
        omega

end sumOver

namespace Bus

variable {b c : Bus} {id t : Nat} {n m : Node}

def total (f : Node → Nat) (b : Bus) : Nat := sumOver f b.nodes

theorem Acts.length (h : Acts b id n m c) : c.nodes.length = b.nodes.length := by
  have hid := (List.getElem?_eq_some_iff.1 h.here).1
  apply Nat.le_antisymm
  · rw [← List.getElem?_eq_none_iff, h.nodes, if_neg (by omega), List.getElem?_eq_none (Nat.le_refl _)]
    rfl
  · rw [← List.getElem?_eq_none_iff]
    have hc : c.nodes[c.nodes.length]? = none := List.getElem?_eq_none (Nat.le_refl _)
    rw [h.nodes] at hc
    split at hc
    · cases hc
    · simpa using hc

theorem Acts.total_le {f : Node → Nat} (h : Acts b id n m c) (ho : ∀ (j : Nat) k, j ≠ id → b.nodes[j]? = some k →
    f (k.after (b.level.edge? c.level) b.now) ≤ f k) : c.total f + f n ≤ b.total f + f m := by
  refine sumOver_add_le h.length h.here h.self fun j x x' hj hx hx' => ?_
  rw [h.other hj hx] at hx'
  cases hx'
  exact ho j x hj hx

theorem Acts.total_eq {f : Node → Nat} (h : Acts b id n m c) (ho : ∀ (j : Nat) k, j ≠ id → b.nodes[j]? = some k →
    f (k.after (b.level.edge? c.level) b.now) = f k) : c.total f + f n = b.total f + f m := by
  refine Nat.le_antisymm (h.total_le fun j k hj hk => Nat.le_of_eq (ho j k hj hk)) ?_
  refine sumOver_add_le h.length.symm h.self h.here fun j x x' hj hx hx' => ?_
  rw [h.other hj hx'] at hx
  cases hx
  exact Nat.le_of_eq (ho j x' hj hx').symm

end Bus

def Initiator.rank (s : Initiator) (x : Outgoing) : Nat :=
  10 * (8 * x.length - x.buffer.pos) +
    match s with
    | freeTime => 0
    | startLow => 6
    | startHigh => 5
    | low .eom => 9
    | high .eom => 8
    | low _ => 4
    | high _ => 3
    | ackLow => 7
    | ackHigh => 6
    | ackVerify => 5

/-- With the next bit an initiator is nearer to the end of its attempt. -/
theorem Initiator.rank_next_lt {x : Outgoing} {f : BitKind} (h : f.Within x.buffer.pos x.length) (hf : f ≠ .eom)
    (hn : 0 < x.length) (hm : x.length ≤ Message.maxLength) :
    (low (f.next x.buffer.advance)).rank { x with buffer := x.buffer.advance } < (high f).rank x := by
  have hlt := h.pos_lt hf hn
  have hadv := BitBuffer.pos_advance (h.pos_lt_capacity hf hn hm)
  have hnew : ∀ g, (low g).rank { x with buffer := x.buffer.advance } ≤
      10 * (8 * x.length - (x.buffer.pos + 1)) + 9 := by
    intro g
    cases g <;> simp [rank, hadv]
  have hold : 10 * (8 * x.length - x.buffer.pos) + 3 ≤ (high f).rank x := by
    cases f <;> simp [rank]
  have := hnew (f.next x.buffer.advance)
  omega

def attemptRank : Nat := 1300

namespace Engine

def toSend (e : Engine) : Nat :=
  if e.isSending = false then 0
  else match e.state with
    | .initiator s =>
      if s = .freeTime then (Outgoing.maxResends + 1 - e.tx.resends) * attemptRank
      else (Outgoing.maxResends - e.tx.resends) * attemptRank + s.rank e.tx
    | _ => (Outgoing.maxResends + 1 - e.tx.resends) * attemptRank

def toAnswer (e : Engine) : Nat :=
  match e.state with
  | .follower .ackLow => 3
  | .follower .ackVerify => 2
  | .follower _ => 1
  | _ => 0

variable {e d : Engine} {s : Initiator}

theorem toSend_of_not_speaks (h : e.state.speaks = false) : e.toSend =
    if e.isSending = false then 0 else (Outgoing.maxResends + 1 - e.tx.resends) * attemptRank := by
  cases hs : e.state with
  | initiator s => cases s <;> simp_all [toSend, State.speaks]
  | _ => simp only [toSend, hs]

theorem toSend_of_initiator (h : e.state = .initiator s) (hs : s ≠ .freeTime) (hp : e.isSending = true) :
    e.toSend = (Outgoing.maxResends - e.tx.resends) * attemptRank + s.rank e.tx := by
  simp [toSend, h, hs, hp]

theorem toSend_congr (hx : d.tx.Same e.tx) (hd : d.state.speaks = false) (he : e.state.speaks = false) :
    d.toSend = e.toSend := by
  rw [toSend_of_not_speaks hd, toSend_of_not_speaks he, isSending_of_same hx, hx.resends]

theorem rank_lt (s : Initiator) {x : Outgoing} (h : x.length ≤ Message.maxLength) : s.rank x < attemptRank := by
  simp only [Message.maxLength] at h
  unfold Initiator.rank attemptRank
  split <;> omega

theorem quit_toSend (e : Engine) (h : e.state.speaks = false) : e.quit.toSend = e.toSend :=
  toSend_congr (same_quit e) (not_speaks_quit e) h

/-- Within an attempt the rank is what counts. -/
theorem toSend_lt_of_rank {u : Initiator} (h : e.state = .initiator s) (hs : s ≠ .freeTime)
    (hp : e.isSending = true) (hd : d.state = .initiator u) (hu : u ≠ .freeTime) (hx : d.tx.Same e.tx)
    (hlt : u.rank d.tx < s.rank e.tx) : d.toSend < e.toSend := by
  have hdp : d.isSending = true := (isSending_of_same hx).trans hp
  rw [toSend_of_initiator hd hu hdp, toSend_of_initiator h hs hp, hx.resends]
  omega

theorem toSend_lt_of_begun (hf : e.Fit) (h : e.state = .initiator .freeTime) (hp : e.isSending = true)
    (hd : d.state = .initiator .startLow) (hx : d.tx.Same e.tx) : d.toSend < e.toSend := by
  have hr := hf.tx.resends_le
  have hrank := rank_lt .startLow (x := d.tx) (by rw [hx.length]; exact hf.tx.length_le)
  have hdp : d.isSending = true := (isSending_of_same hx).trans hp
  rw [toSend_of_initiator hd (by simp) hdp, toSend_of_not_speaks (e := e) (by rw [h]; rfl), hp, hx.resends,
    if_neg (by simp)]
  simp only [Outgoing.maxResends, attemptRank] at hr hrank ⊢
  omega

/-- An attempt that failed has something left of it, so that the next one costs no more. -/
theorem toSend_lt_of_again (h : e.state = .initiator .ackVerify) (hp : e.isSending = true)
    (hd : d.state = .initiator .freeTime) (hx : d.tx.length = e.tx.length)
    (hr : d.tx.resends = e.tx.resends + 1) : d.toSend < e.toSend := by
  have hdp : d.isSending = true := by simpa only [isSending, Outgoing.isPending, hx] using hp
  rw [toSend_of_initiator h (by simp) hp, toSend_of_not_speaks (by rw [hd]; rfl), hdp, hr, if_neg (by simp)]
  simp only [Initiator.rank, Outgoing.maxResends, attemptRank]
  omega

theorem toSend_lt_of_ended (h : e.state = .initiator .ackVerify) (hp : e.isSending = true)
    (hd : d.isSending = false) : d.toSend < e.toSend := by
  rw [toSend_of_initiator h (by simp) hp]
  simp only [toSend, hd, Initiator.rank, if_true]
  omega

theorem onTimeout_toSend (hf : e.Fit) (h : e.state = .initiator s) (line : Reading) :
    (e.onTimeout line).engine.toSend < e.toSend := by
  obtain ⟨hp, hc⟩ := hf.busy s h
  cases s with
  | freeTime =>
    rw [onTimeout_freeTime h]
    exact toSend_lt_of_begun hf h hp rfl ⟨rfl, rfl, rfl⟩
  | startLow =>
    rw [onTimeout_startLow h]
    exact toSend_lt_of_rank h (by simp) hp rfl (by simp) .refl (by simp [Initiator.rank])
  | startHigh =>
    rw [onTimeout_startHigh h]
    exact toSend_lt_of_rank h (by simp) hp rfl (by simp) .refl (by simp [Initiator.rank])
  | low f =>
    rw [onTimeout_low h]
    exact toSend_lt_of_rank h (by simp) hp rfl (by simp) .refl (by cases f <;> simp [Initiator.rank])
  | high f =>
    by_cases hfe : f = .eom
    · subst hfe
      rw [onTimeout_high_eom h]
      exact toSend_lt_of_rank h (by simp) hp rfl (by simp) .refl (by simp [Initiator.rank])
    · rw [hf.onTimeout_high h hfe]
      exact toSend_lt_of_rank h (by simp) hp rfl (by simp) ⟨rfl, rfl, rfl⟩
        (Initiator.rank_next_lt hc hfe (Outgoing.length_pos hp) hf.tx.length_le)
  | ackLow =>
    rw [onTimeout_ackLow h]
    exact toSend_lt_of_rank h (by simp) hp rfl (by simp) .refl (by simp [Initiator.rank])
  | ackHigh =>
    rw [onTimeout_ackHigh h]
    exact toSend_lt_of_rank h (by simp) hp rfl (by simp) ⟨rfl, rfl, rfl⟩ (by simp [Initiator.rank])
  | ackVerify =>
    cases ha : e.tx.acked with
    | true =>
      cases hl : e.tx.isLast with
      | true => rw [onTimeout_sent h ha hl]; exact toSend_lt_of_ended h hp rfl
      | false =>
        rw [onTimeout_acked h ha hl]
        exact toSend_lt_of_rank h (by simp) hp rfl (by simp) .refl (by simp [Initiator.rank])
    | false =>
      by_cases hm : e.tx.resends < Outgoing.maxResends
      · rw [onTimeout_resend h ha hm]; exact toSend_lt_of_again h hp rfl rfl rfl
      · rw [onTimeout_failed h ha hm]; exact toSend_lt_of_ended h hp rfl

/-- Every deadline of a follower brings it nearer to its rest, and leaves its own frame waiting. -/
theorem onTimeout_toAnswer {s : Follower} (h : e.state = .follower s) (line : Reading) :
    (e.onTimeout line).engine.toAnswer < e.toAnswer ∧ (e.onTimeout line).engine.toSend = e.toSend := by
  have hq : e.quit.toAnswer = 0 := by
    unfold toAnswer
    rcases e.quit_state with ⟨hq, -⟩ | ⟨hq, -⟩ <;> rw [hq]
  have hs := quit_toSend e (by rw [h]; rfl)
  by_cases h1 : s = .ackLow
  · subst h1
    rw [onTimeout_follower_ackLow h]
    exact ⟨by simp [toAnswer, h], toSend_congr .refl rfl (by rw [h]; rfl)⟩
  by_cases h2 : s = .ackVerify
  · subst h2
    cases hr : e.rx.refused with
    | true => rw [onTimeout_refused h hr, hq]; exact ⟨by simp [toAnswer, h], hs⟩
    | false =>
      rw [onTimeout_follower_ackVerify h hr]
      exact ⟨by simp [toAnswer, h], toSend_congr .refl rfl (by rw [h]; rfl)⟩
  · rw [onTimeout_follower h h1 h2, hq]
    refine ⟨?_, hs⟩
    cases s <;> simp_all [toAnswer]

theorem toAnswer_le (e : Engine) : e.toAnswer ≤ 3 := by
  unfold toAnswer
  split <;> omega

end Engine

namespace Node

variable {n : Node} {fall now : Nat} {e : Option Edge}

theorem Placed.toAnswer_after_calm (h : n.Placed fall now) (he : e ≠ some .falling) :
    (n.after e now).engine.toAnswer ≤ n.engine.toAnswer := by
  rcases n.after_cases now he with hsame | ⟨-, hw, hsame⟩
  · exact Nat.le_of_eq (congrArg (·.engine.toAnswer) hsame)
  · rw [hsame]
    have hold : n.engine.toAnswer = 1 := by
      rcases h.sound.waits_rising hw with hs | ⟨f, hs⟩ <;> simp [Engine.toAnswer, hs]
    rw [hold]
    rcases h.sound.state_hear_rising hw now with hq | ⟨s, hq, hs⟩
    · rw [hq]
      rcases n.engine.quit_state with ⟨hi, -⟩ | ⟨hi, -⟩ <;> simp [Engine.toAnswer, hi]
    · rcases hs with rfl | rfl | ⟨f, rfl⟩ <;> simp [Engine.toAnswer, hq]

end Node

namespace Bus

variable {b c : Bus} {id t : Nat} {n m : Node}

/-- What all nodes have to do yet. Whatever an initiator does may give every other node an answer to
do, which counts less than any deadline of an initiator. -/
def toDo (b : Bus) : Nat :=
  b.total (·.engine.toSend) * (3 * b.nodes.length + 1) + b.total (·.engine.toAnswer)

theorem total_toAnswer_le (b : Bus) : b.total (·.engine.toAnswer) ≤ 3 * b.nodes.length :=
  sumOver_le fun n _ => n.engine.toAnswer_le

/-- What only depends on the frame to be sent stays as it is at those who do not speak. -/
theorem Turn.others {α : Type} (hx : Turn b t id n c) (f : Engine → α)
    (hf : ∀ d e : Engine, d.tx.Same e.tx → d.state.speaks = false → e.state.speaks = false → f d = f e)
    {j : Nat} {k : Node} (hj : j ≠ id) (hk : b.nodes[j]? = some k) :
    f (k.after (b.level.edge? c.level) t).engine = f k.engine := by
  have place : k.Placed b.lastFall t := hx.before.placed _ (List.mem_of_getElem? hk)
  have heard : (k.hear t).engine.tx.Same k.engine.tx := k.engine_hear t ▸ Engine.onCapture_same _ _
  cases hd : (n.expire b.level t).engine.state.drives with
  | true =>
    obtain ⟨hedge, ho⟩ := hx.falling hd
    rw [hedge]
    by_cases hw : k.timer.waitsFor .falling = true
    · rw [Node.after_of_waitsFor hw]
      exact hf _ _ heard (place.hear_falling hw).2 (ho j k hj hk).1
    · rw [Node.after_of_not_waitsFor hw]
  | false =>
    rcases k.after_cases t (hx.calm hd) with hsame | ⟨-, hw, hsame⟩
    · rw [hsame]
    · obtain ⟨h1, h2⟩ := Node.not_speaks_hear_rising place.sound hw t
      rw [hsame]
      exact hf _ _ heard h1 h2

/-- A deadline leaves less to do, if it gives the others nothing to send and, where a follower's own
passes, nothing to answer. -/
theorem Expires.toDo_lt (he : Expires b t id n c) (hn : n.Sound)
    (hsend : ∀ (j : Nat) k, j ≠ id → b.nodes[j]? = some k →
      (k.after (b.level.edge? c.level) t).engine.toSend = k.engine.toSend)
    (hanswer : (∃ s, n.engine.state = .follower s) → ∀ (j : Nat) k, j ≠ id → b.nodes[j]? = some k →
      (k.after (b.level.edge? c.level) t).engine.toAnswer ≤ k.engine.toAnswer) : c.toDo < b.toDo := by
  have heng := n.engine_expire b.level t
  have hlen : c.nodes.length = b.nodes.length := he.acts.length
  have hsum : c.total (·.engine.toSend) + n.engine.toSend =
      b.total (·.engine.toSend) + (n.expire b.level t).engine.toSend := he.acts.total_eq hsend
  unfold toDo
  rw [hlen]
  rcases hn.busy_of_deadline he.due with ⟨s, hs⟩ | ⟨s, hs⟩
  · have hlt := Engine.onTimeout_toSend hn.fit hs (some b.level)
    rw [← heng] at hlt
    have hle := c.total_toAnswer_le
    rw [hlen] at hle
    have hmul : (c.total (·.engine.toSend) + 1) * (3 * b.nodes.length + 1) ≤
        b.total (·.engine.toSend) * (3 * b.nodes.length + 1) := Nat.mul_le_mul_right _ (by omega)
    rw [Nat.add_mul] at hmul
    omega
  · obtain ⟨hlt, heq⟩ := Engine.onTimeout_toAnswer hs (some b.level)
    rw [← heng] at hlt heq
    have hle : c.total (·.engine.toAnswer) + n.engine.toAnswer ≤
        b.total (·.engine.toAnswer) + (n.expire b.level t).engine.toAnswer := he.acts.total_le (hanswer ⟨s, hs⟩)
    rw [show c.total (·.engine.toSend) = b.total (·.engine.toSend) by omega]
    omega

/-- Each deadline that passes on a quiet bus leaves less to do. -/
theorem Quiet.toDo_lt (h : b.Quiet) (he : Expires b t id n c) : c.toDo < b.toDo := by
  have hx := h.turn he
  refine he.toDo_lt (h.placed n (List.mem_of_getElem? he.acts.here)).sound
    (fun _ _ hj hk => hx.others Engine.toSend (fun _ _ => Engine.toSend_congr) hj hk) ?_
  rintro ⟨s, hs⟩ j k - hk
  have hcalm := hx.calm (hx.expired.not_drives hs)
  exact (hx.before.placed k (List.mem_of_getElem? hk)).toAnswer_after_calm hcalm

/-- A bus gets as far as the limit allows after some number of deadlines, if each of them keeps what
is known of it and leaves less to do. By induction on what there is to do. -/
theorem advance_of_toDo (I : Bus → Prop) (limit : Option Nat) (hs : ∀ {b}, I b → b.NodesSound)
    (hstep : ∀ {b t id n c}, I b → Expires b t id n c → limit.any (· < t) = false → I c ∧ c.toDo < b.toDo)
    (h : I b) : ∃ k0 c, (∀ k, k0 ≤ k → b.advance? limit k = some c) ∧ I c ∧ c.step? limit = none := by
  induction hd : b.toDo using Nat.strongRecOn generalizing b with
  | ind d ih =>
    cases hb : b.step? limit with
    | none =>
      refine ⟨1, b, fun k hk => ?_, h, hb⟩
      obtain ⟨k, rfl⟩ : ∃ k', k = k' + 1 := ⟨k - 1, by omega⟩
      simp only [advance?, hb]
    | some b' =>
      obtain ⟨t, id, n, he, hl⟩ := step?_eq_some (hs h) hb
      obtain ⟨hi, hlt⟩ := hstep h he hl
      obtain ⟨k0, c, hc, hlast⟩ := ih b'.toDo (hd ▸ hlt) hi rfl
      refine ⟨k0 + 1, c, fun k hk => ?_, hlast⟩
      obtain ⟨k, rfl⟩ : ∃ k', k = k' + 1 := ⟨k - 1, by omega⟩
      simp only [advance?, hb]
      exact hc k (by omega)

theorem advance?_mono {limit : Option Nat} {k m : Nat} (h : b.advance? limit k = some c) (hk : k ≤ m) :
    b.advance? limit m = some c := by
  induction k generalizing b m with
  | zero => cases h
  | succ k ih =>
    obtain ⟨m, rfl⟩ : ∃ m', m = m' + 1 := ⟨m - 1, by omega⟩
    unfold advance? at h ⊢
    cases hb : b.step? limit with
    | none => rwa [hb] at h
    | some b' =>
      rw [hb] at h
      exact ih h (by omega)

/-- A step that comes to its end does so with any more deadlines allowed. -/
theorem perform?_mono {s : Step} {r : Reply} {k m : Nat} (h : b.perform? k s = some (c, r)) (hk : k ≤ m) :
    b.perform? m s = some (c, r) := by
  have until_mono : ∀ {a d t}, runUntil? k a t = some d → runUntil? m a t = some d := by
    intro a d t ht
    obtain ⟨d', hd, rfl⟩ := Option.map_eq_some_iff.1 ht
    rw [runUntil?, advance?_mono hd hk]
    rfl
  cases s with
  | run =>
    obtain ⟨d, hd, hr⟩ := Option.map_eq_some_iff.1 h
    rw [perform?, run?, advance?_mono hd hk]
    exact congrArg some hr
  | runFor ticks =>
    obtain ⟨d, hd, hr⟩ := Option.map_eq_some_iff.1 h
    rw [perform?, until_mono hd]
    exact congrArg some hr
  | glitch low =>
    obtain ⟨d, hd, hr⟩ := Option.map_eq_some_iff.1 h
    obtain ⟨d', hd', rfl⟩ := Option.map_eq_some_iff.1 hd
    rw [perform?, glitch?, until_mono hd']
    exact congrArg some hr
  | send id m => exact h
  | setEnabled id on => exact h
  | setAddress id a => exact h

/-- However far it is to go, a quiet bus gets there after some number of deadlines. -/
theorem Quiet.advance (h : b.Quiet) (limit : Option Nat) :
    ∃ k0 c, ∀ k, k0 ≤ k → b.advance? limit k = some c := by
  obtain ⟨k0, c, hc, -⟩ := advance_of_toDo Quiet limit Quiet.nodesSound
    (fun h he _ => ⟨h.expire he, h.toDo_lt he⟩) h
  exact ⟨k0, c, hc⟩

end Bus
end HdmiCec
