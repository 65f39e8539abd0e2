import HdmiCec.Device.Caller
import HdmiCec.Device.Host
import HdmiCec.Device.LineTask

/-! The order in which the tasks of a device run on one thread, and a clock that stands still as
long as any of them can. -/
namespace HdmiCec.Device

def quiet (d : Device) : Bool :=
  !d.lineReady && !d.hostReady && d.calls.all fun c => !d.callReady c.2

def round (d : Device) : Device :=
  let d := d.pollLine
  ((d.calls.map (·.1)).foldl pollCall d).pollHost

def rounds : Nat → Device → Device
  | 0, d => d
  | k + 1, d => if d.quiet then d else rounds k d.round

/-- Deadlines that an engine can let pass one after the other until it is idle: three for the frame
it follows, and six attempts at a frame of sixteen blocks. -/
def drainBound : Nat := 3 + 6 * (3 + 21 * Message.maxLength)

def settle (d : Device) : Device := rounds ((d.calls.length + 1) * (drainBound + 4)) d

def runTo (stop : Nat) : Nat → Device → Device
  | 0, d => ({ d with now := stop }).settle
  | k + 1, d => match d.timer.deadline? with
    | some t =>
      if d.now < t ∧ t ≤ stop then runTo stop k ({ d with now := t }).settle
      else ({ d with now := stop }).settle
    | none => ({ d with now := stop }).settle

def run (d : Device) (ticks : Nat) : Device := runTo (d.now + ticks) ticks d

def late (d : Device) (ticks : Nat) : Device := ({ d with now := d.now + ticks }).settle

def pull (d : Device) (low : Bool) : Device :=
  let next := { d with heldLow := low }
  match d.level.edge? next.level with
  | some e => ({ next with edgeSeen := d.edgeSeen || d.timer.waitsFor e }).settle
  | none => next.settle

def pulse (d : Device) (p : Ticks × Ticks) : Device :=
  (((d.pull true).run p.1).pull false).run p.2

inductive Step where
  | enable (on : Bool)
  | send (m : Message)
  | sendWait (m : Message)
  | cancel (id : Nat)
  | serve (on : Bool)
  | setOff (off : Bool)
  | setAddress (a : LogicalAddress)
  | pop
  | takeEvents
  | run (ticks : Nat)
  | late (ticks : Nat)
  | pull (low : Bool)
  | pulses (ps : List (Ticks × Ticks))
  /-- Starts the task that owns the line once more. -/
  | spawn
  deriving DecidableEq, Repr

def perform (d : Device) : Step → Device × Reply
  | .enable on => ((d.begin (.enabling on)).settle, .nothing)
  | .send m => ((d.begin (.submitting m)).settle, .nothing)
  | .sendWait m => ((d.begin (.locking m)).settle, .nothing)
  | .cancel id => ((d.cancel id).settle, .nothing)
  | .serve on => (({ d with serving := on }).settle, .nothing)
  | .setOff off => (({ d with off := off }).settle, .nothing)
  | .setAddress a => match d.engine.setAddress a with
    | .ok r => ((d.absorb r d.now).settle, .ok)
    | .error e => (d.settle, .refused (.address e))
  | .pop =>
    let (mailbox, m, notices) := d.mailbox.pop
    ((({ d with mailbox := mailbox }).report notices).settle, .message m)
  | .takeEvents =>
    let (mailbox, bits) := d.mailbox.takeEvents
    (({ d with mailbox := mailbox }).settle, .events bits)
  | .run ticks => (d.run ticks, .nothing)
  | .late ticks => (d.late ticks, .nothing)
  | .pull low => (d.pull low, .nothing)
  | .pulses ps => (ps.foldl pulse d, .nothing)
  | .spawn => (d.settle, .runsAlready)

def observe (d : Device) (s : Step) : Device × Reply × Trace :=
  let (d, reply) := ({ d with trace := {} } : Device).perform s
  (d, reply, d.trace)

end HdmiCec.Device
