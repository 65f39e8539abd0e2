import HdmiCec.Proofs.Bus.Spread

/-! Runs of a bus. A script acts on one node at a time and lets deadlines pass in between, each of
them alone. What these single events preserve holds in every state that a script reaches
(`Preserved.reaches`). -/
namespace HdmiCec

namespace Bus

variable {b c : Bus}

theorem earliest_eq_none {nodes : List Node} (h : earliest nodes = none) :
    ∀ n ∈ nodes, n.timer.deadline? = none := by
  induction nodes with
  | nil => simp
  | cons n rest ih =>
    cases hd : n.timer.deadline? with
    | some v =>
      cases he : earliest rest with
      | none => simp [earliest, hd, he] at h
      | some p =>
        simp only [earliest, hd, he] at h
        split at h <;> cases h
    | none =>
      have he : earliest rest = none := by simpa [earliest, hd] using h
      intro m hm
      rcases List.mem_cons.1 hm with rfl | hm
      · exact hd
      · exact ih he m hm

theorem earliest_eq_some {nodes : List Node} {t id : Nat} (h : earliest nodes = some (t, id)) :
    (∃ n, nodes[id]? = some n ∧ n.timer.deadline? = some t) ∧
      ∀ n ∈ nodes, ∀ u, n.timer.deadline? = some u → t ≤ u := by
  induction nodes generalizing t id with
  | nil => simp [earliest] at h
  | cons n rest ih =>
    cases hd : n.timer.deadline? with
    | none =>
      cases he : earliest rest with
      | none => simp [earliest, hd, he] at h
      | some p =>
        obtain ⟨u, j⟩ := p
        simp only [earliest, hd, he, Option.map_some, Option.some.injEq, Prod.mk.injEq] at h
        obtain ⟨rfl, rfl⟩ := h
        obtain ⟨⟨m, hm, hmd⟩, hmin⟩ := ih he
        refine ⟨⟨m, by simpa using hm, hmd⟩, ?_⟩
        intro k hk v hv
        rcases List.mem_cons.1 hk with rfl | hk
        · simp [hd] at hv
        · exact hmin k hk v hv
    | some v =>
      cases he : earliest rest with
      | none =>
        simp only [earliest, hd, he, Option.some.injEq, Prod.mk.injEq] at h
        obtain ⟨rfl, rfl⟩ := h
        refine ⟨⟨n, rfl, hd⟩, ?_⟩
        intro k hk w hw
        rcases List.mem_cons.1 hk with rfl | hk
        · simp_all
        · simp [earliest_eq_none he k hk] at hw
      | some p =>
        obtain ⟨u, j⟩ := p
        obtain ⟨⟨m, hm, hmd⟩, hmin⟩ := ih he
        simp only [earliest, hd, he] at h
        split at h
        · next hle =>
          simp only [Option.some.injEq, Prod.mk.injEq] at h
          obtain ⟨rfl, rfl⟩ := h
          refine ⟨⟨n, rfl, hd⟩, ?_⟩
          intro k hk w hw
          rcases List.mem_cons.1 hk with rfl | hk
          · simp_all
          · exact Nat.le_trans hle (hmin k hk w hw)
        · next hlt =>
          simp only [Option.some.injEq, Prod.mk.injEq] at h
          obtain ⟨rfl, rfl⟩ := h
          refine ⟨⟨m, by simpa using hm, hmd⟩, ?_⟩
          intro k hk w hw
          rcases List.mem_cons.1 hk with rfl | hk
          · rw [hd] at hw
            cases hw
            omega
          · exact hmin k hk w hw

def Settled (b : Bus) : Prop := ∀ n ∈ b.nodes, n.timer.deadline? = none

/-- The deadline of node `id` passes at time `t`, before all others or together with them. -/
structure Expires (b : Bus) (t id : Nat) (n : Node) (c : Bus) : Prop where
  due : n.timer.deadline? = some t
  first : ∀ k ∈ b.nodes, ∀ u, k.timer.deadline? = some u → t ≤ u
  acts : Acts { b with now := t } id n (n.expire b.level t) c

theorem step?_eq_none {limit : Option Nat} (h : b.step? limit = none) :
    ∀ n ∈ b.nodes, ∀ u, n.timer.deadline? = some u → limit.any (· < u) = true := by
  intro n hn u hu
  unfold step? at h
  cases he : earliest b.nodes with
  | none => simp [earliest_eq_none he n hn] at hu
  | some p =>
    obtain ⟨t, id⟩ := p
    have htu := (earliest_eq_some he).2 n hn u hu
    simp only [he] at h
    split at h
    · next hl =>
      obtain ⟨v, rfl, hv⟩ := (Option.any_eq_true _ _).1 hl
      simp only [Option.any_some, decide_eq_true_eq] at hv ⊢
      omega
    · cases h

theorem step?_eq_some {limit : Option Nat} (hs : b.NodesSound) (h : b.step? limit = some c) :
    ∃ t id n, Expires b t id n c ∧ limit.any (· < t) = false := by
  unfold step? at h
  cases he : earliest b.nodes with
  | none => simp [he] at h
  | some p =>
    obtain ⟨t, id⟩ := p
    obtain ⟨⟨n, hn, hd⟩, hmin⟩ := earliest_eq_some he
    simp only [he] at h
    split at h
    · cases h
    · next hl =>
      simp only [Option.some.injEq] at h
      subst h
      have hsound := hs n (List.mem_of_getElem? hn)
      have hacts := acts_cause (b := { b with now := t })
        (f := fun n => ({ n with timer := n.timer.stop }, n.engine.onTimeout (some b.level))) hs hn
        (hsound.expire hd b.level t).1
      exact ⟨t, id, n, ⟨hd, hmin, hacts⟩, Bool.eq_false_iff.2 hl⟩

theorem step?_eq_none_iff : b.step? none = none ↔ b.Settled := by
  constructor
  · intro h n hn
    cases hd : n.timer.deadline? with
    | none => rfl
    | some u => simpa using step?_eq_none h n hn u hd
  · intro h
    cases hs : earliest b.nodes with
    | none => simp [step?, hs]
    | some p =>
      obtain ⟨t, id⟩ := p
      obtain ⟨⟨n, hn, hd⟩, -⟩ := earliest_eq_some hs
      simp [h n (List.mem_of_getElem? hn)] at hd

def fresh (a : LogicalAddress) : Node where
  engine := { state := .idle, address := a }
  timer := .arm (.onEdge .falling) 0

theorem sound_fresh (a : LogicalAddress) : (fresh a).Sound where
  fit := {
    tx := ⟨Nat.zero_le _, Nat.zero_le _, fun _ => rfl⟩
    busy := fun s hs => by cases hs
    prompt := fun _ => rfl
    blank := fun _ => rfl }
  armed := fun _ => ⟨_, rfl, rfl⟩
  unarmed := fun hs => by cases hs
  pulls := fun s hs => by cases hs
  free := fun hp => by cases hp

theorem attach_eq {a : LogicalAddress} (h : a.Assignable) (h0 : b.now = 0) :
    ∃ c, b.attach a = .ok c ∧ c.nodes = b.nodes ++ [fresh a] ∧ c.now = 0 ∧ c.noise = b.noise ∧
      c.fallingEdges = b.fallingEdges := by
  cases hc : b.attach a with
  | error e =>
    simp only [attach, Engine.setAddress, h, if_true] at hc
    cases hc
  | ok c =>
    simp only [attach, Engine.setAddress, h, if_true] at hc
    cases hc
    exact ⟨_, rfl, by rw [h0]; rfl, h0, rfl, rfl⟩

theorem attach_error {a : LogicalAddress} (h : ¬ a.Assignable) : b.attach a = .error (.invalid a) := by
  simp only [attach, Engine.setAddress, h, if_false]
  rfl

/-- A new bus: everyone is idle and the line has been high ever since. -/
structure Starts (as : List LogicalAddress) (b : Bus) : Prop where
  nodes : b.nodes = as.map fresh
  now : b.now = 0
  noise : b.noise = false
  falls : b.fallingEdges = #[]

theorem foldlM_attach {as : List LogicalAddress} (h : ∀ a ∈ as, a.Assignable) (h0 : b.now = 0) :
    ∃ c, as.foldlM attach b = .ok c ∧ c.nodes = b.nodes ++ as.map fresh ∧ c.now = 0 ∧
      c.noise = b.noise ∧ c.fallingEdges = b.fallingEdges := by
  induction as generalizing b with
  | nil => exact ⟨b, rfl, by simp, h0, rfl, rfl⟩
  | cons a as ih =>
    obtain ⟨c, hc, hn, hnow, hq, hf⟩ := attach_eq (h a (by simp)) h0
    obtain ⟨d, hd, hn', hnow', hq', hf'⟩ := ih (fun a' ha' => h a' (by simp [ha'])) hnow
    refine ⟨d, ?_, by rw [hn', hn]; simp, hnow', hq'.trans hq, hf'.trans hf⟩
    rw [List.foldlM_cons, hc]
    exact hd

theorem assignable_of_foldlM {as : List LogicalAddress} (h : as.foldlM attach b = .ok c) :
    ∀ a ∈ as, a.Assignable := by
  induction as generalizing b with
  | nil => simp
  | cons a as ih =>
    rw [List.foldlM_cons] at h
    by_cases ha : a.Assignable
    · cases hd : b.attach a with
      | error e =>
        rw [hd] at h
        cases h
      | ok d =>
        rw [hd] at h
        intro a' ha'
        rcases List.mem_cons.1 ha' with rfl | ha'
        · exact ha
        · exact ih h a' ha'
    · rw [attach_error ha] at h
      cases h

theorem ofAddresses_eq_ok_iff {as : List LogicalAddress} :
    (∃ b, ofAddresses as = .ok b) ↔ ∀ a ∈ as, a.Assignable := by
  constructor
  · rintro ⟨b, hb⟩
    exact assignable_of_foldlM hb
  · intro h
    obtain ⟨c, hc, -⟩ := foldlM_attach (b := { nodes := [] }) h rfl
    exact ⟨c, hc⟩

theorem starts_of_ofAddresses {as : List LogicalAddress} (h : ofAddresses as = .ok b) : Starts as b := by
  obtain ⟨c, hc, hn, h0, hq, hf⟩ := foldlM_attach (b := { nodes := [] }) (assignable_of_foldlM h) rfl
  have hbc : Except.ok b = Except.ok c := h.symm.trans hc
  cases hbc
  exact ⟨by simpa using hn, h0, hq, hf⟩

structure Alters (b : Bus) (id : Nat) (m : Node) (c : Bus) : Prop where
  nodes : c.nodes = b.nodes.set id m
  now : c.now = b.now
  noise : c.noise = b.noise
  falls : c.fallingEdges = b.fallingEdges

theorem Alters.acts {id : Nat} {n m : Node} (h : Alters b id m c) (hn : b.nodes[id]? = some n)
    (hp : m.pulling = n.pulling) : Acts b id n m c := by
  have hlow := level_set hn h.nodes h.noise
  have hnone : b.level.edge? c.level = none := by
    refine edge?_level_eq_none ?_
    rw [hlow, level_self hn, hp]
  refine ⟨hn, fun j => ?_, h.now, h.noise, ?_, hlow⟩
  · rw [hnone, h.nodes]
    by_cases hj : j = id
    · subst hj
      simp [(List.getElem?_eq_some_iff.1 hn).1]
    · rw [List.getElem?_set_ne (Ne.symm hj), if_neg hj]
      cases b.nodes[j]? <;> simp [Node.after_none]
  · rw [hnone, h.falls]
    simp

def accepted? : Step × Reply → Option (Nat × Message)
  | (.send id m, .ok) => some (id, m)
  | _ => none

def accepted (past : List (Step × Reply)) : List (Nat × Message) := past.filterMap accepted?

/-- The states that a bus with these addresses can be in, and what was done to it until then. Between
two steps of a script a bus is also seen in the midst of a run. -/
inductive Reaches (allowed : Step → Prop) (as : List LogicalAddress) : List (Step × Reply) → Bus → Prop
  | start {b : Bus} : ofAddresses as = .ok b → Reaches allowed as [] b
  | perform {past : List (Step × Reply)} {b c : Bus} {k : Nat} {s : Step} {r : Reply} :
      Reaches allowed as past b → allowed s → b.perform? k s = some (c, r) →
      Reaches allowed as (past ++ [(s, r)]) c
  | deadline {past : List (Step × Reply)} {b c : Bus} {limit : Option Nat} :
      Reaches allowed as past b → b.step? limit = some c → Reaches allowed as past c

structure Preserved (allowed : Step → Prop) (I : List (Nat × Message) → Bus → Prop) : Prop where
  sound : ∀ {sent b}, I sent b → b.NodesSound
  expire : ∀ {sent b t id n c}, I sent b → Expires b t id n c → I sent c
  pass : ∀ {sent b t}, I sent b → b.now ≤ t →
    (∀ n ∈ b.nodes, ∀ u, n.timer.deadline? = some u → t < u) → I sent { b with now := t }
  send : ∀ {sent b id n m r c}, allowed (.send id m) → I sent b → n.engine.send m = .ok r →
    Acts b id n (n.absorb r b.now) c → I (sent ++ [(id, m)]) c
  setEnabled : ∀ {sent b id n on c}, allowed (.setEnabled id on) → I sent b →
    Acts b id n (n.absorb (n.engine.setEnabled on) b.now) c → I sent c
  setAddress : ∀ {sent b id n a c}, allowed (.setAddress id a) → a.Assignable → I sent b →
    b.nodes[id]? = some n → Alters b id { n with engine := { n.engine with address := a } } c → I sent c
  noise : ∀ {sent b low} (on : Bool), allowed (.glitch low) → I sent b → I sent (b.setNoise on)

section preserved

variable {allowed : Step → Prop} {I : List (Nat × Message) → Bus → Prop} {sent : List (Nat × Message)}

theorem Preserved.step (h : Preserved allowed I) {limit : Option Nat} (hb : I sent b)
    (hs : b.step? limit = some c) : I sent c := by
  obtain ⟨t, id, n, he, -⟩ := step?_eq_some (h.sound hb) hs
  exact h.expire hb he

theorem Preserved.advance (h : Preserved allowed I) {limit : Option Nat} {k : Nat} (hb : I sent b)
    (ha : b.advance? limit k = some c) : I sent c ∧ c.step? limit = none := by
  induction k generalizing b with
  | zero => simp [advance?] at ha
  | succ k ih =>
    unfold advance? at ha
    cases hs : b.step? limit with
    | none =>
      rw [hs] at ha
      cases ha
      exact ⟨hb, hs⟩
    | some d =>
      rw [hs] at ha
      exact ih (h.step hb hs) ha

/-- The clock does not run past the limit by itself. -/
theorem Preserved.now_advance (h : Preserved allowed I) {t k : Nat} (hb : I sent b) (ht : b.now ≤ t)
    (ha : b.advance? (some t) k = some c) : c.now ≤ t := by
  induction k generalizing b with
  | zero => simp [advance?] at ha
  | succ k ih =>
    unfold advance? at ha
    cases hs : b.step? (some t) with
    | none =>
      rw [hs] at ha
      cases ha
      exact ht
    | some d =>
      rw [hs] at ha
      obtain ⟨u, id, n, he, hu⟩ := step?_eq_some (h.sound hb) hs
      have hnow : d.now = u := he.acts.now
      have hle : ¬ t < u := by simpa using hu
      exact ih (h.expire hb he) (by omega) ha

theorem Preserved.runUntil (h : Preserved allowed I) {t k : Nat} (hb : I sent b) (ht : b.now ≤ t)
    (ha : b.runUntil? k t = some c) : I sent c := by
  obtain ⟨d, hd, rfl⟩ := Option.map_eq_some_iff.1 ha
  obtain ⟨hi, hn⟩ := h.advance hb hd
  refine h.pass hi (Nat.le_max_left _ _) ?_
  intro n hmem u hu
  have hle := h.now_advance hb ht hd
  have hlt : t < u := by simpa using step?_eq_none hn n hmem u hu
  omega

theorem perform?_send {k id : Nat} {m : Message} {r : Reply} (hs : b.NodesSound)
    (h : b.perform? k (.send id m) = some (c, r)) : c = b ∧ (∃ e, r = .refused e) ∨
      r = .ok ∧ ∃ n q, n.engine.send m = .ok q ∧ Acts b id n (n.absorb q b.now) c := by
  obtain ⟨n, hn, hr⟩ := Option.map_eq_some_iff.1 h
  cases hq : n.engine.send m with
  | error e =>
    have he : b.send id n m = .error e := by simp only [Bus.send, hq]; rfl
    simp only [he, Prod.mk.injEq] at hr
    exact .inl ⟨hr.1.symm, _, hr.2.symm⟩
  | ok q =>
    have he : b.send id n m = .ok (b.cause id (·.react id fun n => (n, q))) := by
      simp only [Bus.send, hq]; rfl
    simp only [he, Prod.mk.injEq] at hr
    obtain ⟨rfl, rfl⟩ := hr
    have hm := (hs n (List.mem_of_getElem? hn)).send hq b.now
    exact .inr ⟨rfl, n, q, hq, acts_cause (f := fun n => (n, q)) hs hn hm⟩

theorem perform?_setAddress {k id : Nat} {a : LogicalAddress} {r : Reply}
    (h : b.perform? k (.setAddress id a) = some (c, r)) : c = b ∨ ∃ n, b.nodes[id]? = some n ∧ a.Assignable ∧
      Alters b id { n with engine := { n.engine with address := a } } c := by
  obtain ⟨n, hn, hr⟩ := Option.map_eq_some_iff.1 h
  by_cases hv : a.Assignable
  · have he : b.setAddress id n a = .ok (b.react id fun k =>
        (k, { engine := { n.engine with address := a }, notices := [.addressSet a] })) := by
      simp only [Bus.setAddress, Engine.setAddress, hv, if_true]; rfl
    simp only [he, Prod.mk.injEq] at hr
    obtain ⟨rfl, rfl⟩ := hr
    refine .inr ⟨n, hn, hv, ?_⟩
    rw [react_of_getElem? hn]
    exact ⟨rfl, rfl, rfl, rfl⟩
  · have he : b.setAddress id n a = .error (.invalid a) := by
      simp only [Bus.setAddress, Engine.setAddress, hv, if_false]; rfl
    simp only [he, Prod.mk.injEq] at hr
    exact .inl hr.1.symm

theorem Preserved.perform (h : Preserved allowed I) {k : Nat} {s : Step} {r : Reply} (ha : allowed s)
    (hb : I sent b) (hp : b.perform? k s = some (c, r)) : I (sent ++ accepted [(s, r)]) c := by
  have hs := h.sound hb
  have keep : accepted [(s, r)] = [] → I sent c → I (sent ++ accepted [(s, r)]) c := by
    intro he hc
    rw [he, List.append_nil]
    exact hc
  cases s with
  | send id m =>
    rcases perform?_send hs hp with ⟨rfl, e, rfl⟩ | ⟨rfl, n, q, hq, hc⟩
    · exact keep rfl hb
    · exact h.send ha hb hq hc
  | setEnabled id on =>
    obtain ⟨n, hn, hr⟩ := Option.map_eq_some_iff.1 hp
    simp only [Prod.mk.injEq] at hr
    obtain ⟨rfl, rfl⟩ := hr
    have hm := (hs n (List.mem_of_getElem? hn)).setEnabled on b.now
    exact keep rfl (h.setEnabled ha hb (acts_cause (f := fun n => (n, n.engine.setEnabled on)) hs hn hm))
  | setAddress id a =>
    rcases perform?_setAddress hp with rfl | ⟨n, hn, hv, hc⟩
    · exact keep rfl hb
    · exact keep rfl (h.setAddress ha hv hb hn hc)
  | glitch low =>
    obtain ⟨d, hd, hr⟩ := Option.map_eq_some_iff.1 hp
    simp only [Prod.mk.injEq] at hr
    obtain ⟨rfl, rfl⟩ := hr
    obtain ⟨d', hd', rfl⟩ := Option.map_eq_some_iff.1 hd
    have hnow : (b.setNoise true).now = b.now := (spread_spec _ { b with noise := true } _ _ hs).2.1
    refine keep rfl (h.noise false ha (h.runUntil (h.noise true ha hb) ?_ hd'))
    omega
  | run =>
    obtain ⟨d, hd, hr⟩ := Option.map_eq_some_iff.1 hp
    simp only [Prod.mk.injEq] at hr
    obtain ⟨rfl, rfl⟩ := hr
    exact keep rfl (h.advance hb hd).1
  | runFor ticks =>
    obtain ⟨d, hd, hr⟩ := Option.map_eq_some_iff.1 hp
    simp only [Prod.mk.injEq] at hr
    obtain ⟨rfl, rfl⟩ := hr
    exact keep rfl (h.runUntil hb (by omega) hd)

theorem accepted_append (past more : List (Step × Reply)) :
    accepted (past ++ more) = accepted past ++ accepted more := List.filterMap_append

/-- What every event preserves holds wherever a script leads. -/
theorem Preserved.reaches (h : Preserved allowed I) {as : List LogicalAddress}
    (h0 : ∀ {b}, ofAddresses as = .ok b → I [] b) {past : List (Step × Reply)}
    (hr : Reaches allowed as past b) : I (accepted past) b := by
  induction hr with
  | start hb => exact h0 hb
  | perform _ ha hp ih =>
    rw [accepted_append]
    exact h.perform ha ih hp
  | deadline _ hs ih => exact h.step ih hs

end preserved

end Bus
end HdmiCec
