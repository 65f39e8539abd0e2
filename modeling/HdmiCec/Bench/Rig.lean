import HdmiCec.Bench.Reply
import HdmiCec.Engine.Call

/-! One engine on a line that a script holds: it may pull the line low, make it unreadable or
unwritable, and report events that the engine is not waiting for. -/
namespace HdmiCec

structure Rig where
  engine : Engine := {}
  /-- The engine lets go of the line. -/
  released : Bool := true
  pulledLow : Bool := false
  readsFail : Bool := false
  writesFail : Bool := false
  deriving DecidableEq, Repr

namespace Rig

inductive Step where
  | setAddress (a : LogicalAddress)
  | setEnabled (on : Bool)
  | submit (m : Message)
  | send (m : Message)
  | startSend
  | timeout
  | capture (t : Ticks)
  | pull (low : Bool)
  | fail (reads writes : Bool)
  | query
  deriving DecidableEq, Repr

structure Report where
  reply : Reply
  actions : List LineAction := []
  notices : List Notice := []
  deriving DecidableEq, Repr

def reading (g : Rig) : Reading :=
  if g.readsFail then none else some (.ofPulls (!g.released || g.pulledLow))

def act (g : Rig) : LineAction → Rig
  | .set level => if g.writesFail then g else { g with released := level == .high }
  | .arm _ | .stop => g

def absorb (g : Rig) (r : Reaction) (reply : Reply) : Rig × Report :=
  (r.actions.foldl act { g with engine := r.engine },
    { reply := reply, actions := r.actions, notices := r.notices })

def perform (g : Rig) : Step → Rig × Report
  | .setAddress a => match g.engine.setAddress a with
    | .ok r => g.absorb r .ok
    | .error e => (g, { reply := .refused (.address e) })
  | .setEnabled on => g.absorb (g.engine.setEnabled on) .nothing
  | .submit m => match g.engine.submit m with
    | .ok r => g.absorb r .ok
    | .error e => (g, { reply := .refused (.send e) })
  | .send m => match g.engine.send m with
    | .ok r => g.absorb r .ok
    | .error e => (g, { reply := .refused (.send e) })
  | .startSend => g.absorb g.engine.startSend .nothing
  | .timeout =>
    let r := g.engine.onTimeout g.reading
    g.absorb r (.completion r.outcome)
  | .capture t =>
    let r := g.engine.onCapture t
    g.absorb r (.completion r.outcome)
  | .pull low => ({ g with pulledLow := low }, { reply := .nothing })
  | .fail reads writes => ({ g with readsFail := reads, writesFail := writes }, { reply := .nothing })
  | .query => (g, { reply := .condition g.engine.isEnabled g.engine.address g.released })

end Rig
end HdmiCec
