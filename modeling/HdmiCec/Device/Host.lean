import HdmiCec.Device.Basic

/-! Received messages on their way to the host. -/
namespace HdmiCec.Device

def deliver (d : Device) (m : Message) : Device :=
  let x := d.mailbox.deliver d.config d.off (.received m)
  { d with
    mailbox := x.mailbox,
    trace :=
      { d.trace with calls := d.trace.calls ++ x.calls, notices := d.trace.notices ++ x.notices } }

/-- The waiting messages come first, then one word on all send results since the last one. -/
def pollHost (d : Device) : Device :=
  if ¬ d.serving then d
  else
    let d := d.received.foldl deliver { d with received := [] }
    if d.resultPending then
      { d with
        resultPending := false,
        trace := { d.trace with calls := d.trace.calls.push .eventsPending } }
    else d

def hostReady (d : Device) : Bool := d.serving && (!d.received.isEmpty || d.resultPending)

end HdmiCec.Device
