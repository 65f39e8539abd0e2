import HdmiCec.Message.Frame
import HdmiCec.Message.DeviceType
import HdmiCec.Bench.Station
import HdmiCec.Bus.Step
import HdmiCec.Device.Schedule
import HdmiCec.Proofs.Message.Codec
import HdmiCec.Proofs.Wire.Bits
import HdmiCec.Proofs.Wire.Packed
import HdmiCec.Proofs.Wire.Codec
import HdmiCec.Proofs.Engine.Fit
import HdmiCec.Proofs.Engine.History
import HdmiCec.Proofs.Engine.Account
import HdmiCec.Proofs.Engine.Signal
import HdmiCec.Proofs.Engine.Forgetting
import HdmiCec.Proofs.Engine.Hearing
import HdmiCec.Proofs.Engine.Output
import HdmiCec.Proofs.Engine.Attended
import HdmiCec.Proofs.Engine.AckSlots
import HdmiCec.Proofs.Engine.Buffers
import HdmiCec.Proofs.Engine.Cursors
import HdmiCec.Proofs.Engine.Resends
import HdmiCec.Proofs.Engine.Entering
import HdmiCec.Proofs.Engine.Precedence
import HdmiCec.Proofs.Engine.Glitches
import HdmiCec.Proofs.Engine.Draining
import HdmiCec.Proofs.Engine.Margin
import HdmiCec.Proofs.Engine.Listener
import HdmiCec.Proofs.Engine.Deadlines
import HdmiCec.Proofs.Bus.Node
import HdmiCec.Proofs.Bus.Spread
import HdmiCec.Proofs.Bus.Anchor
import HdmiCec.Proofs.Bus.Exclusion
import HdmiCec.Proofs.Bus.Mirror
import HdmiCec.Proofs.Bus.Delivery
import HdmiCec.Proofs.Bus.Settling
import HdmiCec.Proofs.Bus.Ledger
import HdmiCec.Proofs.Bus.Lockstep
import HdmiCec.Proofs.Bus.Rounds
import HdmiCec.Proofs.Bus.Contention
import HdmiCec.Proofs.Bus.RoundTrip
import HdmiCec.Proofs.Inbox.Backlog
import HdmiCec.Proofs.Inbox.Service
import HdmiCec.Proofs.Inbox.Sharing
import HdmiCec.Proofs.Bus.Accord
import HdmiCec.Proofs.Bus.Airing
import HdmiCec.Proofs.Bus.Broadcast
import HdmiCec.Proofs.Bus.FreeTime
import HdmiCec.Proofs.Bus.Arbitration
import HdmiCec.Proofs.Device.Happenings
import HdmiCec.Proofs.Device.Relay
import HdmiCec.Proofs.Device.Disabling
import HdmiCec.Proofs.Device.Watch
import HdmiCec.Proofs.Device.IdleRequests
import HdmiCec.Proofs.Device.Schedule
import HdmiCec.Proofs.Device.Settling
import HdmiCec.Proofs.Device.Timekeeping
import HdmiCec.Proofs.Device.Capture
