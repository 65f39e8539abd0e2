import HdmiCec.Proofs.Device.Relay

/-! What is left of earlier frames after a device is switched off. The mailbox is emptied as the request is
made, but not what has yet to come to it: the messages that wait for the host's task, and the word that a send
is over. Those reach the host later, also after the device is switched on again (`switching_off_forgets`). -/
namespace HdmiCec.Device

namespace Turn

/-- The host is told to press the power button, or of a message that its task takes, or of send results. -/
theorem told_cases {t : Turn} {call : HostCall} {b : Mailbox ByteRing.defaultCapacity} (h : (call, b) ∈ t.told) :
    (∃ ms, call = .press ms) ∨ (call = .messageAvailable ∧ ∃ m, t.taken = [m]) ∨
      (call = .eventsPending ∧ t.passesOn = true) := by
  have hhost : t.happening = .host := by
    refine Decidable.by_contra fun hne => ?_
    rw [told_of_ne_host hne] at h
    exact absurd h List.not_mem_nil
  obtain h | h := List.mem_append.1 h
  · rw [visits, errands_host hhost] at h
    obtain hnone | ⟨m, htaken, -⟩ := t.taken_cases
    · rw [hnone] at h
      exact absurd h List.not_mem_nil
    · rw [htaken] at h
      replace h : (call, b) ∈ (t.before.mailbox.deliverMessage t.before.config t.before.off m).told := by
        simpa [Desk.turns, Desk.Turn.told, desk, Mailbox.deliver] using h
      unfold Mailbox.deliverMessage at h
      simp only at h
      split at h
      · obtain h | h := List.mem_append.1 h
        · obtain ⟨p, hp, heq⟩ := List.mem_map.1 h
          cases heq
          exact .inl ⟨_, Config.press_of_mem hp⟩
        · cases List.mem_singleton.1 h
          exact .inr (.inl ⟨rfl, m, htaken⟩)
      · obtain ⟨p, hp, heq⟩ := List.mem_map.1 h
        cases heq
        exact .inl ⟨_, Config.press_of_mem hp⟩
  · split at h
    · next hp =>
      cases List.mem_singleton.1 h
      exact .inr (.inr ⟨rfl, hp⟩)
    · exact absurd h List.not_mem_nil

end Turn

/-- What the host may still find of what came before a request to switch off. The request is made at `d` and
leads to `e`; by the end of `meanwhile` it is handled. -/
structure Forgets (d e : Device) (meanwhile rest : List Happening) : Prop where
  /-- No message from the mailbox: what the host gets later waited for its task at the request, or was reported
  since. -/
  fetched : (((e.through meanwhile).turns rest).flatMap Turn.fetched).Sublist
    (d.received ++ (e.turns (meanwhile ++ rest)).flatMap Turn.reported)
  announced : (((e.through meanwhile).turns rest).flatMap Turn.taken).Sublist
      (d.received ++ (e.turns (meanwhile ++ rest)).flatMap Turn.reported) ∧
    ∀ t ∈ (e.through meanwhile).turns rest, ∀ b, (.messageAvailable, b) ∈ t.told → ∃ m, t.taken = [m]
  /-- No event bit of a send that was over before the request. -/
  events : ∀ before after, rest = before ++ .takeEvents :: after → ∃ vs, vs <:+ e.turns (meanwhile ++ before) ∧
    (e.through (meanwhile ++ before)).mailbox.takeEvents.2 = (vs.map Turn.bits).foldl (· ||| ·) 0
  /-- The host is told of send results only if one came since it was told last, or if at the request it had yet
  to be told of one and has not been since. -/
  passedOn : ∀ us t vs, (e.through meanwhile).turns rest = us ++ t :: vs → (∃ b, (.eventsPending, b) ∈ t.told) →
    ∃ ws xs, e.turns meanwhile ++ us = ws ++ xs ∧ (∀ x ∈ xs, x.passesOn = false) ∧
      ((∃ x ∈ xs, x.result?.isSome = true) ∨ ws = [] ∧ d.resultPending = true)

variable {d : Device}

theorem turn_switching_off {id : Nat} (hstage : d.stage? id = some (.enabling false)) (hroom : d.hasRoom = true) :
    (d.happen (.turn id)).mailbox = d.mailbox.reset ∧ (d.happen (.turn id)).received = d.received ∧
      (d.happen (.turn id)).resultPending = d.resultPending := by
  obtain ⟨calls, results, hafter⟩ := pollCall_of_stage? hstage
  rw [happen, hafter, turn_enabling hroom]
  exact ⟨rfl, rfl, rfl⟩

theorem Orderly.forgets {e : Device} (h : e.Orderly []) (hevents : e.mailbox.events = 0) (hreceived : e.received = d.received)
    (hpending : e.resultPending = d.resultPending) (meanwhile rest : List Happening) : Forgets d e meanwhile rest := by
  have hlater (f : Turn → List Message) : (((e.through meanwhile).turns rest).flatMap f).Sublist
      ((e.turns (meanwhile ++ rest)).flatMap f) := by
    rw [turns_append, List.flatMap_append]
    exact List.sublist_append_right _ _
  refine ⟨?_, ⟨?_, fun t ht b hb => ?_⟩, fun before after hrest => ?_, fun us t vs hturns hword => ?_⟩
  · rw [← hreceived]
    exact (hlater Turn.fetched).trans (h.fetched_sublist _)
  · rw [← hreceived]
    exact (hlater Turn.taken).trans (e.taken_sublist _)
  · obtain ⟨ms, hpress⟩ | ⟨-, htaken⟩ | ⟨hresult, -⟩ := Turn.told_cases hb
    · cases hpress
    · exact htaken
    · cases hresult
  · obtain ⟨us, vs, hturns, -, -, hbits⟩ := events_through hevents (meanwhile ++ before)
    exact ⟨vs, ⟨us, hturns.symm⟩, hbits⟩
  · obtain ⟨past, x, after, rfl, rfl, rfl, -⟩ := turns_split hturns
    obtain ⟨b, hb⟩ := hword
    obtain ⟨ms, hpress⟩ | ⟨hmessage, -⟩ | ⟨-, hpasses⟩ := Turn.told_cases hb
    · cases hpress
    · cases hmessage
    · have hwaits : (e.through (meanwhile ++ past)).resultPending = true := by
        rw [through_append]
        exact (Turn.passesOn_iff.1 hpasses).2.2.2
      rw [← turns_append, ← hpending]
      exact pending_since _ hwaits

/-- Whatever was before the request, and whatever comes. -/
theorem switching_off_forgets (c : Config) (off : Bool) (past : List Happening) (id : Nat)
    (hstage : ((opened c off).through past).stage? id = some (.enabling false))
    (hroom : ((opened c off).through past).hasRoom = true) (meanwhile rest : List Happening) :
    Forgets ((opened c off).through past) (((opened c off).through past).happen (.turn id)) meanwhile rest := by
  obtain ⟨l, hl, -⟩ := (orderly_opened c off).through past
  obtain ⟨hmailbox, hreceived, hpending⟩ := turn_switching_off hstage hroom
  obtain ⟨l', hl', -⟩ := Orderly.turn (t := ⟨_, .turn id⟩) hl
  -- Nothing is left in the mailbox, so the account from here on begins with what waits for the host's task.
  have hempty : (((opened c off).through past).happen (.turn id)).mailbox.queue.Holds [] := by
    rw [hmailbox]
    exact hl.mailbox.flush
  obtain rfl : l' = [] := hl'.mailbox.waiting.symm.trans hempty.waiting
  have hevents : (((opened c off).through past).happen (.turn id)).mailbox.events = 0 :=
    (congrArg Mailbox.events hmailbox).trans rfl
  exact Orderly.forgets hl' hevents hreceived hpending meanwhile rest

/-- Of two messages one is in the mailbox and one waits for the host's task. The first is gone, the second comes. -/
theorem switching_off_forgets_first_of_two :
    let past := [.setAddress ⟨5⟩, .enable true, .turn 0, .control] ++ poll ++ poll ++ [.serve true, .host, .enable false]
    let d := (opened {} false).through past
    d.stage? 1 = some (.enabling false) ∧ d.hasRoom = true ∧ d.desk.waiting = [[0x05]] ∧ d.received = [[0x05]] ∧
      Forgets d (d.happen (.turn 1)) [.control] [.host, .pop, .pop] ∧
      (((d.happen (.turn 1)).through [.control]).turns [.host, .pop, .pop]).flatMap Turn.fetched = [[0x05]] := by
  intro past d
  have hstage : d.stage? 1 = some (.enabling false) := by decide +kernel
  have hroom : d.hasRoom = true := by decide +kernel
  exact ⟨hstage, hroom, by decide +kernel, by decide +kernel, switching_off_forgets {} false past 1 hstage hroom _ _,
    by decide +kernel⟩

/-- A message that is received before a device is switched off, and waits for the host's task, is announced and
fetched after the request is handled. -/
theorem received_outlives_switching_off :
    let d := (opened {} false).through
      ([.setAddress ⟨5⟩, .enable true, .turn 0, .control] ++ poll ++ [.enable false, .turn 1, .control])
    ((opened {} false).turns ([.setAddress ⟨5⟩, .enable true, .turn 0, .control] ++ poll)).flatMap Turn.reported = [[0x05]] ∧
      d.calls = [] ∧ d.controls = [] ∧ d.engine.isEnabled = false ∧
      (d.turns [.serve true, .host, .pop]).flatMap Turn.reported = [] ∧
      (d.turns [.serve true, .host, .pop]).flatMap (·.told.map (·.1)) = [.messageAvailable] ∧
      (d.turns [.serve true, .host, .pop]).flatMap Turn.fetched = [[0x05]] := by
  decide +kernel

end HdmiCec.Device
