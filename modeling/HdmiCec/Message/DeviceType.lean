/-! Kinds of devices, numbered as in a report of a physical address. -/
namespace HdmiCec

inductive DeviceType where
  | tv | recordingDevice | reserved | tuner | playbackDevice | audioSystem
  deriving DecidableEq, Repr

namespace DeviceType

def code : DeviceType → UInt8
  | tv => 0
  | recordingDevice => 1
  | reserved => 2
  | tuner => 3
  | playbackDevice => 4
  | audioSystem => 5

def name : DeviceType → String
  | tv => "TV"
  | recordingDevice => "RECORDING_DEVICE"
  | reserved => "RESERVED"
  | tuner => "TUNER"
  | playbackDevice => "PLAYBACK_DEVICE"
  | audioSystem => "AUDIO_SYSTEM"

def all : List DeviceType := [tv, recordingDevice, reserved, tuner, playbackDevice, audioSystem]

def ofByte? (b : UInt8) : Option DeviceType := all.find? fun t => t.code == b

theorem ofByte?_code (t : DeviceType) : ofByte? t.code = some t := by cases t <;> rfl

theorem code_of_ofByte? {b : UInt8} {t : DeviceType} (h : ofByte? b = some t) : t.code = b := by
  simpa using List.find?_some h

end DeviceType
end HdmiCec
