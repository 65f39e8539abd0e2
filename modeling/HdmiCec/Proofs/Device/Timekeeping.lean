import HdmiCec.Proofs.Device.Relay
import HdmiCec.Proofs.Device.Settling

/-! The line's task keeps time (`edge_capture_contract`). A device that is given whatever there is to do, and never
has its clock put on past what is due, runs by a history in which that task is on time (`perform_follows`); in such a
history what the engine is told and when follows from what it armed and from the line. -/
namespace HdmiCec.Device

def Step.isPrompt : Step → Bool
  | .late _ => false
  | _ => true

def play (d : Device) (steps : List Step) : Device := steps.foldl (fun d s => (d.perform s).1) d

/-- `e` comes of `d` by some history, in which the line's task is on time and which ends at rest if it began so. -/
def Follows (d e : Device) : Prop :=
  ∃ hs, e = d.through hs ∧ (d.Sound → d.quiet = true → d.Prompt hs ∧ e.quiet = true)

variable {d e f : Device}

theorem prompt_append {u v : List Happening} : d.Prompt (u ++ v) ↔ d.Prompt u ∧ (d.through u).Prompt v := by
  rw [Prompt, turns_append, List.forall_mem_append]
  rfl

namespace Follows

theorem refl (d : Device) : d.Follows d := ⟨[], rfl, fun _ hquiet => ⟨by simp [Prompt, turns], hquiet⟩⟩

theorem trans (h : d.Follows e) (h' : e.Follows f) : d.Follows f := by
  obtain ⟨u, rfl, hu⟩ := h
  obtain ⟨v, rfl, hv⟩ := h'
  refine ⟨u ++ v, (through_append d u v).symm, fun hd hquiet => ?_⟩
  obtain ⟨hpu, hqu⟩ := hu hd hquiet
  obtain ⟨hpv, hqv⟩ := hv (hd.through hpu) hqu
  exact ⟨prompt_append.2 ⟨hpu, hpv⟩, hqv⟩

/-- Whatever is done to a device, it settles. -/
theorem settle (h : d.Instantly e) : d.Follows e.settle := by
  have hsettle : d.Instantly e.settle := h.trans e.instantly_settle
  obtain ⟨hs, hp, heq⟩ := hsettle.prompt
  exact ⟨hs, heq, fun hd _ => ⟨hp, (hd.instantly h).settle⟩⟩

theorem tick {t : Nat} (ht : d.now ≤ t) (hdue : ∀ u ∈ d.timer.deadline?, d.now < u → t ≤ u) :
    d.Follows ({ d with now := t } : Device).settle := by
  have hpass : d.happen (.pass (t - d.now)) = { d with now := t } := by rw [happen, Nat.add_sub_cancel' ht]
  obtain ⟨hs, hi, heq⟩ := instantly_settle { d with now := t }
  rw [← hpass] at heq ⊢
  obtain ⟨hs, hp, heq⟩ := Instantly.prompt ⟨hs, hi, heq⟩
  refine ⟨.pass (t - d.now) :: hs, heq, fun hd hquiet => ?_⟩
  have hline : d.lineReady = false := (quiet_iff.1 hquiet).1
  have hprompt : Turn.prompt ⟨d, .pass (t - d.now)⟩ = true := by
    have hahead : ∀ u ∈ d.timer.deadline?, d.now < u := fun u hu => by
      simp only [lineReady, EdgeTimer.due, Bool.or_eq_false_iff] at hline
      simpa [Option.mem_def.1 hu] using hline.1.2
    simp only [Turn.prompt, hline, Bool.not_false, Bool.true_and, Option.all_eq_true, decide_eq_true_eq]
    exact fun u hu => (Nat.add_sub_cancel' ht).symm ▸ hdue u hu (hahead u hu)
  refine ⟨?_, ?_⟩
  · rw [Prompt, turns, List.forall_mem_cons]
    exact ⟨hprompt, hp⟩
  · exact (hd.happen hprompt).settle

end Follows

theorem runTo_follows {k stop : Nat} (hstop : d.now ≤ stop) (hk : stop ≤ d.now + k) : d.Follows (runTo stop k d) := by
  -- Each deadline on the way lies ahead, so `k` bounds what is left of the time.
  induction k generalizing d with
  | zero => exact .tick hstop fun u _ hu => by omega
  | succ k ih =>
    rw [runTo]
    split
    · next t ht =>
      split
      · next hdue =>
        have hnow : ({ d with now := t } : Device).settle.now = t := (instantly_settle { d with now := t }).now
        refine (Follows.tick (t := t) (by omega) fun u hu _ => ?_).trans (ih (by omega) (by omega))
        exact (Option.some.inj (ht.symm.trans hu)).le
      · next hdue =>
        refine .tick hstop fun u hu hlt => ?_
        have hu' : t = u := Option.some.inj (ht.symm.trans hu)
        omega
    · next hnone => exact .tick hstop fun u hu => by rw [hnone] at hu; cases hu

theorem run_follows (d : Device) (ticks : Nat) : d.Follows (d.run ticks) :=
  runTo_follows (Nat.le_add_right _ _) le_rfl

theorem pull_eq (d : Device) (low : Bool) : d.pull low = (d.hold low).settle := by
  simp only [pull, hold]
  cases d.level.edge? ({ d with heldLow := low } : Device).level <;> exact congrArg settle rfl

theorem happen_follows (d : Device) {x : Happening} (hx : x.isInstant = true) : d.Follows (d.happen x).settle :=
  .settle (d.instantly_happen hx)

theorem pull_follows (d : Device) (low : Bool) : d.Follows (d.pull low) := by
  rw [pull_eq]
  exact d.happen_follows (x := .hold low) rfl

theorem pulse_follows (d : Device) (p : Ticks × Ticks) : d.Follows (d.pulse p) :=
  (((d.pull_follows true).trans (run_follows _ _)).trans (pull_follows _ _)).trans (run_follows _ _)

theorem pulses_follow (d : Device) (ps : List (Ticks × Ticks)) : d.Follows (ps.foldl pulse d) := by
  induction ps generalizing d with
  | nil => exact .refl d
  | cons p ps ih => exact (d.pulse_follows p).trans (ih _)

/-- A device runs by its schedule as by a history in which the line's task is on time. -/
theorem perform_follows (d : Device) {s : Step} (hs : s.isPrompt = true) : d.Follows (d.perform s).1 := by
  cases s with
  | enable on => exact d.happen_follows (x := .enable on) rfl
  | send m => exact d.happen_follows (x := .send m) rfl
  | sendWait m => exact d.happen_follows (x := .sendWait m) rfl
  | cancel id => exact d.happen_follows (x := .cancel id) rfl
  | serve on => exact d.happen_follows (x := .serve on) rfl
  | setOff off => exact d.happen_follows (x := .setOff off) rfl
  | setAddress a =>
    have h := d.happen_follows (x := .setAddress a) rfl
    cases hr : d.engine.setAddress a <;> simpa only [happen, perform, hr] using h
  | pop => exact d.happen_follows (x := .pop) rfl
  | takeEvents => exact d.happen_follows (x := .takeEvents) rfl
  | run ticks => exact d.run_follows ticks
  | late ticks => cases hs
  | pull low => exact d.pull_follows low
  | pulses ps => exact d.pulses_follow ps
  | spawn => exact .settle (.refl d)

theorem perform_through (d : Device) (s : Step) : ∃ hs, (d.perform s).1 = d.through hs := by
  by_cases h : s.isPrompt = true
  · obtain ⟨hs, heq, -⟩ := d.perform_follows h
    exact ⟨hs, heq⟩
  · cases s with
    | late ticks =>
      obtain ⟨hs, -, heq⟩ := instantly_settle { d with now := d.now + ticks }
      exact ⟨.pass ticks :: hs, heq⟩
    | _ => exact absurd rfl h

theorem play_follows (d : Device) {steps : List Step} (h : ∀ s ∈ steps, s.isPrompt = true) : d.Follows (d.play steps) := by
  induction steps generalizing d with
  | nil => exact .refl d
  | cons s steps ih =>
    rw [List.forall_mem_cons] at h
    exact (d.perform_follows h.1).trans (ih _ h.2)

theorem sound_opened (c : Config) (off : Bool) : (opened c off).Sound where
  watches := ⟨none, watches_of_stopped rfl rfl, fun _ hv => nomatch hv⟩
  steady := Engine.steady_new
  numbered := ⟨List.nodup_nil, fun _ hx => nomatch hx⟩

/-- What the contract says while `w` is under way: what the line's task tells the engine if it is its turn, and that
neither an edge nor the deadline has passed unnoticed. -/
structure Stands (d : Device) (w : Option Watch) : Prop where
  told : d.takeEvent = match Watch.event? w d.now d.level with
    | some (time, c) => d.onEvent time (d.engine.answer c).2
    | none => d
  since : ∀ v ∈ w, v.since ≤ d.now
  edge : ∀ v ∈ w, ∀ t, v.edge = some t → t = d.now
  deadline : ∀ v ∈ w, ∀ t, v.deadline? = some t → d.now ≤ t

def GoesOn (v : Watch) (ts : List Turn) : Prop :=
  (∀ t ∈ ts, t.event? = none) ∧ ∃ edge, ts.foldl Turn.watch (some v) = some { v with edge := edge }

def Turn.Ends (t : Turn) : Prop :=
  t.event?.isSome = true ∨ ∃ c, t.happening = .control ∧ t.before.request? = some c ∧ ¬ t.before.engine.Ignores c

def told (d : Device) (hs : List Happening) : List (Nat × Engine.Call) := (d.turns hs).filterMap Turn.event?

theorem GoesOn.cons {v : Watch} {t : Turn} {edge : Option Nat} {ts : List Turn} (hevent : t.event? = none)
    (hwatch : t.watch (some v) = some { v with edge := edge }) (h : GoesOn { v with edge := edge } ts) :
    GoesOn v (t :: ts) := by
  obtain ⟨hnone, edge', hrest⟩ := h
  exact ⟨List.forall_mem_cons.2 ⟨hevent, hnone⟩, edge', by rw [List.foldl_cons, hwatch, hrest]⟩

/-- What one turn does to the wait under way. -/
theorem Watches.ends_or {v : Watch} (h : d.Watches (some v)) (x : Happening) : Turn.Ends ⟨d, x⟩ ∨
    Turn.event? ⟨d, x⟩ = none ∧ ∃ edge, Turn.watch (some v) ⟨d, x⟩ = some { v with edge := edge } := by
  cases x with
  | event =>
    have hevent : Turn.event? ⟨d, .event⟩ = Watch.event? (some v) d.now d.level := h.event?
    cases he : Watch.event? (some v) d.now d.level with
    | none => exact .inr ⟨hevent.trans he, v.edge, by simp [Turn.watch, he]⟩
    | some y => exact .inl (.inl (by rw [hevent, he]; rfl))
  | control =>
    cases hr : d.request? with
    | none => exact .inr ⟨rfl, v.edge, by simp [Turn.watch, hr]⟩
    | some c =>
      by_cases hi : d.engine.Ignores c
      · exact .inr ⟨rfl, v.edge, by simp [Turn.watch, hr, hi.answer]⟩
      · exact .inl (.inr ⟨c, rfl, hr, hi⟩)
  | hold low =>
    obtain hsame | ⟨-, hnoted⟩ := v.note_cases d.now (d.level.edge? (Turn.after ⟨d, .hold low⟩).level)
    · exact .inr ⟨rfl, v.edge, by simp [Turn.watch, hsame]⟩
    · exact .inr ⟨rfl, some d.now, by simp [Turn.watch, hnoted]⟩
  | _ => exact .inr ⟨rfl, v.edge, rfl⟩

theorem Watches.ends {v : Watch} (h : d.Watches (some v)) {hs : List Happening} (hp : d.Prompt hs) :
    GoesOn v (d.turns hs) ∨ ∃ us t vs, d.turns hs = us ++ t :: vs ∧ GoesOn v us ∧ t.Ends := by
  induction hs generalizing d v with
  | nil => exact .inl ⟨by simp [turns], v.edge, rfl⟩
  | cons x rest ih =>
    rw [Prompt, turns, List.forall_mem_cons] at hp
    obtain hends | ⟨hevent, edge, hwatch⟩ := h.ends_or x
    · exact .inr ⟨[], ⟨d, x⟩, _, rfl, ⟨by simp, v.edge, rfl⟩, hends⟩
    · have hnext : (d.happen x).Watches (some { v with edge := edge }) := hwatch ▸ Turn.watches h hp.1
      obtain hgoes | ⟨us, t, vs, hturns, hgoes, hends⟩ := ih hnext hp.2
      · exact .inl (hgoes.cons hevent hwatch)
      · exact .inr ⟨⟨d, x⟩ :: us, t, vs, by rw [turns, hturns]; rfl, hgoes.cons hevent hwatch, hends⟩

/-- In this history the engine gets what it armed. -/
structure KeepsTime (d : Device) (hs : List Happening) : Prop where
  /-- At any moment. -/
  stands : ∀ past rest, hs = past ++ rest → (d.through past).Stands (watch (d.turns past))
  /-- Of each wait the engine is told one event, unless a request that it acts on comes before. -/
  ends : ∀ past rest v, hs = past ++ rest → watch (d.turns past) = some v →
    GoesOn v ((d.through past).turns rest) ∨
      ∃ us t vs, (d.through past).turns rest = us ++ t :: vs ∧ GoesOn v us ∧ t.Ends

theorem Watches.keepsTime (h : d.Watches none) {hs : List Happening} (hp : d.Prompt hs) : d.KeepsTime hs := by
  have hat : ∀ past rest, hs = past ++ rest →
      (d.through past).Watches (watch (d.turns past)) ∧ (d.through past).Prompt rest := fun past rest hsplit => by
    rw [hsplit, prompt_append] at hp
    exact ⟨h.through hp.1, hp.2⟩
  refine ⟨fun past rest hsplit => ?_, fun past rest v hsplit hv => ?_⟩
  · have hw := (hat past rest hsplit).1
    exact ⟨hw.takeEvent_eq, hw.since, hw.edge, hw.deadline⟩
  · obtain ⟨hw, hrest⟩ := hat past rest hsplit
    rw [hv] at hw
    exact hw.ends hrest

/-- The line's task keeps the contract of a wait. As long as the clock does not jump, whatever is done to a device
makes a history in which that task is on time, and nothing is left undone at the end; in every such history the engine
is told of the first edge that it waits for or of the deadline, both counted from what armed the wait; and requests
that it ignores, made at any moment, change nothing of what it is told or does to the line. -/
theorem edge_capture_contract (c : Config) (off : Bool) :
    (∀ steps : List Step, (∀ s ∈ steps, s.isPrompt = true) → ∃ hs, (opened c off).Prompt hs ∧
      (opened c off).play steps = (opened c off).through hs ∧ ((opened c off).play steps).quiet = true) ∧
    (∀ hs, (opened c off).Prompt hs → (opened c off).KeepsTime hs) ∧
    (∀ hs hs', Padded (opened c off) [] hs hs' →
      (opened c off).told hs' = (opened c off).told hs ∧
      ((opened c off).through hs').trace.writes = ((opened c off).through hs).trace.writes ∧
      ((opened c off).through hs').now = ((opened c off).through hs).now) ∧
    (∀ past rest cs, ((opened c off).through past).edgeSeen = false → ((opened c off).through past).controls = [] →
      (∀ x ∈ cs, ((opened c off).through past).engine.Ignores x) →
      Padded (opened c off) [] (past ++ rest) (past ++ (spare cs ++ rest))) ∧
    ∀ e : Engine, (e.Ignores .startSend ↔ ¬ (e.state = .idle ∧ e.isSending = true)) ∧
      ∀ on, e.Ignores (.enable on) ↔ on = e.isEnabled := by
  have hsound := sound_opened c off
  have hstopped : (opened c off).Watches none := watches_of_stopped rfl rfl
  refine ⟨fun steps hsteps => ?_, fun hs hp => hstopped.keepsTime hp, fun hs hs' h => ?_,
    fun past rest cs hseen hnone hcs => ?_,
    fun e => ⟨Engine.ignores_startSend_iff, fun on => Engine.ignores_enable_iff⟩⟩
  · obtain ⟨hs, heq, hp⟩ := play_follows (opened c off) hsteps
    obtain ⟨hprompt, hquiet⟩ := hp hsound rfl
    exact ⟨hs, hprompt, heq, hquiet⟩
  · obtain ⟨htold, q, hend⟩ := h.same rfl hsound.steady
    have hstart : (opened c off).queued [] = opened c off := rfl
    rw [hstart] at htold hend
    exact ⟨htold, by rw [hend]; rfl, by rw [hend]; rfl⟩
  · refine Padded.append (d := opened c off) past ?_
    rw [hnone]
    exact padded_spare hseen hnone hcs rest

/-- A short pulse: two edges, and the pause after them. While the line is low someone asks in vain. -/
theorem edge_capture_contract_glitch :
    let d := opened {} false
    let falls : List Happening := [.enable true, .turn 0, .control, .pass 1000, .hold true, .event, .pass 60]
    let rises : List Happening := [.pass 40, .hold false, .event, .pass 100, .event]
    let asked : List Happening := spare [.enable true, .startSend]
    (∃ hs, d.Prompt hs ∧ d.play [.enable true, .pull true, .run 100] = d.through hs ∧
      (d.play [.enable true, .pull true, .run 100]).quiet = true) ∧
    d.Prompt (falls ++ rises) ∧ d.KeepsTime (falls ++ rises) ∧
    Padded d [] (falls ++ rises) (falls ++ (asked ++ rises)) ∧
    d.told (falls ++ (asked ++ rises)) = d.told (falls ++ rises) ∧
    d.told (falls ++ rises) = [(1000, .capture 1000), (1100, .capture 100), (1200, .timeout (some .high))] := by
  intro d falls rises asked
  obtain ⟨hplay, hkeeps, hsame, hspare, -⟩ := edge_capture_contract {} false
  have hprompt : d.Prompt (falls ++ rises) := by decide +kernel
  have hpadded : Padded d [] (falls ++ rises) (falls ++ (asked ++ rises)) :=
    hspare falls rises [.enable true, .startSend] (by decide +kernel) (by decide +kernel) (by decide +kernel)
  exact ⟨hplay _ (by decide), hprompt, hkeeps _ hprompt, hpadded, (hsame _ _ hpadded).1, by decide +kernel⟩

end HdmiCec.Device
