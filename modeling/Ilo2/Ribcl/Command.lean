import Ilo2.Tls.Prf

/-!
# RIBCL commands

The first half of `ribcl.hpp`: the commands, and the documents that are sent for them.  A
`std::string` is a list of bytes.
-/

namespace Ilo2.Ribcl

open Tls (ascii)

/-- `xml_attr_escape`. -/
def xmlAttrEscape (s : List UInt8) : List UInt8 :=
  s.flatMap fun ch =>
    if ch = 0x26 then ascii "&amp;"
    else if ch = 0x3C then ascii "&lt;"
    else if ch = 0x3E then ascii "&gt;"
    else if ch = 0x22 then ascii "&quot;"
    else if ch = 0x27 then ascii "&apos;"
    else [ch]

inductive RibclCommand where
  | getPowerStatus
  | getEmbeddedHealth
  | getPowerReadings
  | getOneTimeBoot
  | getVmStatus
  | getFwVersion
  | powerOn
  | powerOff
  | forcePowerOff
  | reset
  | coldBoot
  | uidOn
  | uidOff
  | setOneTimeBoot
  | insertVirtualMedia
  | ejectVirtualMedia
  | setVmBootOption
deriving DecidableEq, Repr

structure RibclArgs where
  device : List UInt8 := []
  imageUrl : List UInt8 := []
  bootOption : List UInt8 := []
  bootDevice : List UInt8 := []
deriving DecidableEq

/-- `ribcl_is_write`. -/
def ribclIsWrite : RibclCommand → Bool
  | .getPowerStatus | .getEmbeddedHealth | .getPowerReadings | .getOneTimeBoot
  | .getVmStatus | .getFwVersion => false
  | _ => true

/-- `ribcl_wrapper`. -/
def ribclWrapper : RibclCommand → List UInt8
  | .getVmStatus | .getFwVersion | .insertVirtualMedia | .ejectVirtualMedia | .setVmBootOption =>
      ascii "RIB_INFO"
  | _ => ascii "SERVER_INFO"

/-- `ribcl_command_name`. -/
def ribclCommandName : RibclCommand → String
  | .getPowerStatus => "power status"
  | .getEmbeddedHealth => "health"
  | .getPowerReadings => "power readings"
  | .getOneTimeBoot => "one-time boot"
  | .getVmStatus => "virtual media status"
  | .getFwVersion => "firmware version"
  | .powerOn => "power on"
  | .powerOff => "power off"
  | .forcePowerOff => "force power off"
  | .reset => "reset"
  | .coldBoot => "cold boot"
  | .uidOn => "UID on"
  | .uidOff => "UID off"
  | .setOneTimeBoot => "set one-time boot"
  | .insertVirtualMedia => "insert virtual media"
  | .ejectVirtualMedia => "eject virtual media"
  | .setVmBootOption => "set virtual media boot option"

/-- `s`, or `default` if it is empty. -/
def orElse (s : List UInt8) (default : String) : List UInt8 :=
  if s = [] then ascii default else s

/-- The element of a command: `inner` in `ribcl_body`. -/
def innerBody (c : RibclCommand) (args : RibclArgs) : List UInt8 :=
  let device := orElse args.device "CDROM"
  match c with
  | .getPowerStatus => ascii "<GET_HOST_POWER_STATUS/>"
  | .getEmbeddedHealth => ascii "<GET_EMBEDDED_HEALTH/>"
  | .getPowerReadings => ascii "<GET_POWER_READINGS/>"
  | .getOneTimeBoot => ascii "<GET_ONE_TIME_BOOT/>"
  | .getFwVersion => ascii "<GET_FW_VERSION/>"
  | .powerOn => ascii "<SET_HOST_POWER HOST_POWER=\"Yes\"/>"
  | .powerOff => ascii "<SET_HOST_POWER HOST_POWER=\"No\"/>"
  | .forcePowerOff => ascii "<HOLD_PWR_BTN/>"
  | .reset => ascii "<RESET_SERVER/>"
  | .coldBoot => ascii "<COLD_BOOT_SERVER/>"
  | .uidOn => ascii "<UID_CONTROL UID=\"Yes\"/>"
  | .uidOff => ascii "<UID_CONTROL UID=\"No\"/>"
  | .getVmStatus => ascii "<GET_VM_STATUS DEVICE=\"" ++ xmlAttrEscape device ++ ascii "\"/>"
  | .insertVirtualMedia =>
      ascii "<INSERT_VIRTUAL_MEDIA DEVICE=\"" ++ xmlAttrEscape device ++
        ascii "\" IMAGE_URL=\"" ++ xmlAttrEscape args.imageUrl ++ ascii "\"/>"
  | .ejectVirtualMedia =>
      ascii "<EJECT_VIRTUAL_MEDIA DEVICE=\"" ++ xmlAttrEscape device ++ ascii "\"/>"
  | .setVmBootOption =>
      ascii "<SET_VM_STATUS DEVICE=\"" ++ xmlAttrEscape device ++
        ascii "\">\r\n<VM_BOOT_OPTION VALUE=\"" ++
        xmlAttrEscape (orElse args.bootOption "NO_BOOT") ++ ascii "\"/>\r\n</SET_VM_STATUS>"
  | .setOneTimeBoot =>
      -- this command alone spells its attribute in lower case
      ascii "<SET_ONE_TIME_BOOT value=\"" ++ xmlAttrEscape (orElse args.bootDevice "NORMAL") ++
        ascii "\"/>"

/-- `ribcl_body`. -/
def ribclBody (c : RibclCommand) (args : RibclArgs) : List UInt8 :=
  let w := ribclWrapper c
  ascii "<" ++ w ++ ascii " MODE=\"" ++ (if ribclIsWrite c then ascii "write" else ascii "read") ++
    ascii "\">\r\n" ++ innerBody c args ++ ascii "\r\n</" ++ w ++ ascii ">"

/-- `ribcl_prolog`. -/
def ribclProlog : List UInt8 := ascii "<?xml version=\"1.0\"?>\r\n"

/-- `ribcl_document`. -/
def ribclDocument (user pass body : List UInt8) : List UInt8 :=
  ascii "<RIBCL VERSION=\"2.0\">\r\n<LOGIN USER_LOGIN=\"" ++ xmlAttrEscape user ++
    ascii "\" PASSWORD=\"" ++ xmlAttrEscape pass ++ ascii "\">\r\n" ++ body ++
    ascii "\r\n</LOGIN>\r\n</RIBCL>\r\n"

end Ilo2.Ribcl
