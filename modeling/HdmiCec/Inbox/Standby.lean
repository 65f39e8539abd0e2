import HdmiCec.Message.Opcode
import HdmiCec.Notice

/-! Messages that a system in standby acts on. It presses its power button on the commands that a
policy names; the message goes to the host all the same. -/
namespace HdmiCec

inductive StandbyAction where
  | ignore
  | powerButton
  deriving DecidableEq, Repr

def StandbyAction.name : StandbyAction → String
  | ignore => "None"
  | powerButton => "PowerButton"

/-- Commands and what each of them sets off. The first entry for a command holds. -/
abbrev StandbyPolicy := List (Opcode × StandbyAction)

namespace StandbyPolicy

def standard : StandbyPolicy := [(.imageViewOn, .powerButton), (.textViewOn, .powerButton)]

def action (p : StandbyPolicy) (command : UInt8) : StandbyAction :=
  match p.find? fun e => e.1.code == command with
  | some e => e.2
  | none => .ignore

def response (p : StandbyPolicy) (m : Message) : StandbyAction :=
  match m[1]? with
  | some command => p.action command
  | none => .ignore

end StandbyPolicy

inductive HostCall where
  /-- Press the power button for so many milliseconds. -/
  | press (ms : Nat)
  /-- A message waits in the queue. -/
  | messageAvailable
  /-- The result of a send can be fetched. -/
  | eventsPending
  deriving DecidableEq, Repr

structure Config where
  policy : StandbyPolicy := .standard
  /-- Length of a press of the power button in milliseconds. -/
  pressMs : Nat := 200
  deriving DecidableEq, Repr

def Config.inStandby (c : Config) (off : Bool) (m : Message) :
    Except StandbyError StandbyAction × List HostCall × List Notice :=
  if ¬ off then (.error .notHandled, [], [])
  else if m = [] then (.error .invalidLength, [], [])
  else match c.policy.response m with
    | .powerButton => (.ok .powerButton, [.press c.pressMs], [.inStandby m])
    | .ignore => (.ok .ignore, [], [.inStandby m])

end HdmiCec
