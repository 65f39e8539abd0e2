/-! The commands of the bus and their numbers. `Opcode.ofByte?` inverts `Opcode.code`. -/
namespace HdmiCec

inductive Opcode where
  | featureAbort | imageViewOn | tunerStepIncrement | tunerStepDecrement | tunerDeviceStatus
  | giveTunerDeviceStatus | recordOn | recordStatus | recordOff | textViewOn | recordTvScreen
  | giveDeckStatus | deckStatus | setMenuLanguage | clearAnalogueTimer | setAnalogueTimer
  | timerStatus | standby | play | deckControl | timerClearedStatus | userControlPressed
  | userControlReleased | giveOsdName | setOsdName | setOsdString | setTimerProgramTitle
  | systemAudioModeRequest | giveAudioStatus | setSystemAudioMode | reportAudioStatus
  | giveSystemAudioModeStatus | systemAudioModeStatus | routingChange | routingInformation
  | activeSource | givePhysicalAddress | reportPhysicalAddress | requestActiveSource
  | setStreamPath | deviceVendorId | vendorCommand | vendorRemoteButtonDown
  | vendorRemoteButtonUp | giveDeviceVendorId | menuRequest | menuStatus
  | giveDevicePowerStatus | reportPowerStatus | getMenuLanguage | selectAnalogueService
  | selectDigitalService | setDigitalTimer | clearDigitalTimer | setAudioRate | inactiveSource
  | cecVersion | getCecVersion | vendorCommandWithId | clearExternalTimer | setExternalTimer
  | abort
  deriving DecidableEq, Repr

namespace Opcode

def entry : Opcode → UInt8 × String
  | featureAbort => (0x00, "FEATURE_ABORT")
  | imageViewOn => (0x04, "IMAGE_VIEW_ON")
  | tunerStepIncrement => (0x05, "TUNER_STEP_INCREMENT")
  | tunerStepDecrement => (0x06, "TUNER_STEP_DECREMENT")
  | tunerDeviceStatus => (0x07, "TUNER_DEVICE_STATUS")
  | giveTunerDeviceStatus => (0x08, "GIVE_TUNER_DEVICE_STATUS")
  | recordOn => (0x09, "RECORD_ON")
  | recordStatus => (0x0A, "RECORD_STATUS")
  | recordOff => (0x0B, "RECORD_OFF")
  | textViewOn => (0x0D, "TEXT_VIEW_ON")
  | recordTvScreen => (0x0F, "RECORD_TV_SCREEN")
  | giveDeckStatus => (0x1A, "GIVE_DECK_STATUS")
  | deckStatus => (0x1B, "DECK_STATUS")
  | setMenuLanguage => (0x32, "SET_MENU_LANGUAGE")
  | clearAnalogueTimer => (0x33, "CLEAR_ANALOGUE_TIMER")
  | setAnalogueTimer => (0x34, "SET_ANALOGUE_TIMER")
  | timerStatus => (0x35, "TIMER_STATUS")
  | standby => (0x36, "STANDBY")
  | play => (0x41, "PLAY")
  | deckControl => (0x42, "DECK_CONTROL")
  | timerClearedStatus => (0x43, "TIMER_CLEARED_STATUS")
  | userControlPressed => (0x44, "USER_CONTROL_PRESSED")
  | userControlReleased => (0x45, "USER_CONTROL_RELEASED")
  | giveOsdName => (0x46, "GIVE_OSD_NAME")
  | setOsdName => (0x47, "SET_OSD_NAME")
  | setOsdString => (0x64, "SET_OSD_STRING")
  | setTimerProgramTitle => (0x67, "SET_TIMER_PROGRAM_TITLE")
  | systemAudioModeRequest => (0x70, "SYSTEM_AUDIO_MODE_REQUEST")
  | giveAudioStatus => (0x71, "GIVE_AUDIO_STATUS")
  | setSystemAudioMode => (0x72, "SET_SYSTEM_AUDIO_MODE")
  | reportAudioStatus => (0x7A, "REPORT_AUDIO_STATUS")
  | giveSystemAudioModeStatus => (0x7D, "GIVE_SYSTEM_AUDIO_MODE_STATUS")
  | systemAudioModeStatus => (0x7E, "SYSTEM_AUDIO_MODE_STATUS")
  | routingChange => (0x80, "ROUTING_CHANGE")
  | routingInformation => (0x81, "ROUTING_INFORMATION")
  | activeSource => (0x82, "ACTIVE_SOURCE")
  | givePhysicalAddress => (0x83, "GIVE_PHYSICAL_ADDRESS")
  | reportPhysicalAddress => (0x84, "REPORT_PHYSICAL_ADDRESS")
  | requestActiveSource => (0x85, "REQUEST_ACTIVE_SOURCE")
  | setStreamPath => (0x86, "SET_STREAM_PATH")
  | deviceVendorId => (0x87, "DEVICE_VENDOR_ID")
  | vendorCommand => (0x89, "VENDOR_COMMAND")
  | vendorRemoteButtonDown => (0x8A, "VENDOR_REMOTE_BUTTON_DOWN")
  | vendorRemoteButtonUp => (0x8B, "VENDOR_REMOTE_BUTTON_UP")
  | giveDeviceVendorId => (0x8C, "GIVE_DEVICE_VENDOR_ID")
  | menuRequest => (0x8D, "MENU_REQUEST")
  | menuStatus => (0x8E, "MENU_STATUS")
  | giveDevicePowerStatus => (0x8F, "GIVE_DEVICE_POWER_STATUS")
  | reportPowerStatus => (0x90, "REPORT_POWER_STATUS")
  | getMenuLanguage => (0x91, "GET_MENU_LANGUAGE")
  | selectAnalogueService => (0x92, "SELECT_ANALOGUE_SERVICE")
  | selectDigitalService => (0x93, "SELECT_DIGITAL_SERVICE")
  | setDigitalTimer => (0x97, "SET_DIGITAL_TIMER")
  | clearDigitalTimer => (0x99, "CLEAR_DIGITAL_TIMER")
  | setAudioRate => (0x9A, "SET_AUDIO_RATE")
  | inactiveSource => (0x9D, "INACTIVE_SOURCE")
  | cecVersion => (0x9E, "CEC_VERSION")
  | getCecVersion => (0x9F, "GET_CEC_VERSION")
  | vendorCommandWithId => (0xA0, "VENDOR_COMMAND_WITH_ID")
  | clearExternalTimer => (0xA1, "CLEAR_EXTERNAL_TIMER")
  | setExternalTimer => (0xA2, "SET_EXTERNAL_TIMER")
  | abort => (0xFF, "ABORT")

def code (op : Opcode) : UInt8 := op.entry.1

def name (op : Opcode) : String := op.entry.2

def all : List Opcode :=
  [featureAbort, imageViewOn, tunerStepIncrement, tunerStepDecrement, tunerDeviceStatus,
    giveTunerDeviceStatus, recordOn, recordStatus, recordOff, textViewOn, recordTvScreen,
    giveDeckStatus, deckStatus, setMenuLanguage, clearAnalogueTimer, setAnalogueTimer,
    timerStatus, standby, play, deckControl, timerClearedStatus, userControlPressed,
    userControlReleased, giveOsdName, setOsdName, setOsdString, setTimerProgramTitle,
    systemAudioModeRequest, giveAudioStatus, setSystemAudioMode, reportAudioStatus,
    giveSystemAudioModeStatus, systemAudioModeStatus, routingChange, routingInformation,
    activeSource, givePhysicalAddress, reportPhysicalAddress, requestActiveSource,
    setStreamPath, deviceVendorId, vendorCommand, vendorRemoteButtonDown,
    vendorRemoteButtonUp, giveDeviceVendorId, menuRequest, menuStatus,
    giveDevicePowerStatus, reportPowerStatus, getMenuLanguage, selectAnalogueService,
    selectDigitalService, setDigitalTimer, clearDigitalTimer, setAudioRate, inactiveSource,
    cecVersion, getCecVersion, vendorCommandWithId, clearExternalTimer, setExternalTimer,
    abort]

def ofByte? (b : UInt8) : Option Opcode := all.find? fun op => op.code == b

theorem ofByte?_code (op : Opcode) : ofByte? op.code = some op := by cases op <;> rfl

theorem code_of_ofByte? {b : UInt8} {op : Opcode} (h : ofByte? b = some op) : op.code = b := by
  simpa using List.find?_some h

end Opcode
end HdmiCec
