import HdmiCec.Device.Basic

/-! Calls that take time: switching the device on or off, sending a frame, and sending one and
waiting for its fate. -/
namespace HdmiCec.Device

def hasRoom (d : Device) : Bool := d.controls.length < controlCapacity

def request (d : Device) (c : Control) : Device := { d with controls := d.controls ++ [c] }

abbrev Progress := Device × (Call ⊕ CallResult)

def awaitResult (d : Device) : Progress :=
  match d.lastResult with
  | some r => ({ d with lastResult := none, locked := false }, .inr (.told r))
  | none => (d, .inl .awaiting)

def askToStart (d : Device) : Progress :=
  if d.hasRoom then (d.request .startSend, .inr (.sent (.ok ()))) else (d, .inl .starting)

def askToStartLocked (d : Device) : Progress :=
  if d.hasRoom then (d.request .startSend).awaitResult else (d, .inl .startingLocked)

/-- One turn of a call. Switching off also empties the mailbox, right after the request. -/
def turn (d : Device) : Call → Progress
  | .enabling on =>
    if d.hasRoom then
      let d := d.request (.enable on)
      (if on then d else { d with mailbox := d.mailbox.reset }, .inr .finished)
    else (d, .inl (.enabling on))
  | .submitting m => match d.engine.submit m with
    | .ok r => (d.absorb r d.now).askToStart
    | .error e => (d, .inr (.sent (.error e)))
  | .starting => d.askToStart
  | .locking m =>
    if d.locked then (d, .inl (.locking m))
    else match d.engine.submit m with
      | .ok r => ({ d.absorb r d.now with locked := true, lastResult := none }).askToStartLocked
      | .error e => ({ d with lastResult := none }, .inr (.told (.error (.rejected e))))
  | .startingLocked => d.askToStartLocked
  | .awaiting => d.awaitResult

def stage? (d : Device) (id : Nat) : Option Call := (d.calls.find? (·.1 == id)).map (·.2)

def pollCall (d : Device) (id : Nat) : Device :=
  match d.stage? id with
  | none => d
  | some c => match d.turn c with
    | (d, .inl c) => { d with calls := d.calls.map fun x => if x.1 == id then (id, c) else x }
    | (d, .inr r) =>
      { d with
        calls := d.calls.filter (·.1 != id),
        trace := { d.trace with results := d.trace.results.push (id, r) } }

def callReady (d : Device) : Call → Bool
  | .enabling _ | .starting | .startingLocked => d.hasRoom
  | .submitting _ => true
  | .locking _ => !d.locked
  | .awaiting => d.lastResult.isSome

def begin (d : Device) (c : Call) : Device :=
  { d with calls := d.calls ++ [(d.nextId, c)], nextId := d.nextId + 1 }

def cancel (d : Device) (id : Nat) : Device :=
  match d.stage? id with
  | none => d
  | some c =>
    { d with calls := d.calls.filter (·.1 != id), locked := d.locked && !c.holdsLock }

end HdmiCec.Device
