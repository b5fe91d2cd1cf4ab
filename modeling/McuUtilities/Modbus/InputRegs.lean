import McuUtilities.Modbus.Words

/-!
# Input registers (`modbus_reg.h`, `modbus_reg.c`)

The table `modebusReadRegList` of the input registers, the packed structures behind it and the
getters that fill them. A getter copies what other modules measured (`Readings`) into its structure
and returns a pointer to it, or into it. A structure is kept by its fields; `bytes` lays it out,
little-endian and without padding. A structure of sixteen one-bit fields is a `UInt16`, and a field
that a getter reorders in place is kept as its bytes.
-/

namespace McuUtilities.Modbus
open Prog

/-- The types of fields that are declared in headers of other modules, `STA_PROTECT_BITS`,
`STA_WARMING_BITS` and `MOTOR_ERROR_BITS_T`: their sizes, and the assignment of `lock_l` and
`lock_r` in the last one. -/
structure BitTypes where
  staProtectBits : Nat
  staWarmingBits : Nat
  motorErrorBits : Nat
  setLock : Vector UInt8 motorErrorBits → UInt8 → UInt8 → Vector UInt8 motorErrorBits

variable {B : BitTypes}

/-! ## Structures -/

/-- `MODBUS_TIMESTAMP_T`. -/
structure ModbusTimestamp where
  year : UInt16
  moon : UInt8
  date : UInt8
  weekdate : UInt8
  hour : UInt8
  min : UInt8
  second : UInt8
  millisecond : UInt16
deriving Inhabited

def ModbusTimestamp.bytes (t : ModbusTimestamp) : List UInt8 :=
  host [t.year] ++ [t.moon, t.date, t.weekdate, t.hour, t.min, t.second] ++ host [t.millisecond]

/-- `MODBUS_REG_MOTOR_DRIVE_PARAS_T`. -/
structure ModbusRegMotorDriveParas where
  eularYaw : UInt16
  speedW : UInt16
  speedV : UInt16
  odomX : Vector UInt8 4
  odomY : Vector UInt8 4
  odomTotal : Vector UInt8 4
  ts : ModbusTimestamp
deriving Inhabited

def ModbusRegMotorDriveParas.bytes (r : ModbusRegMotorDriveParas) : List UInt8 :=
  host [r.eularYaw, r.speedW, r.speedV] ++ r.odomX.toList ++ r.odomY.toList ++
    r.odomTotal.toList ++ r.ts.bytes

/-- `MODBUS_REG_THTB_T`; the fields are `int16_t`. -/
structure ModbusRegThtb where
  temperatureInner : UInt16
  humidityInner : UInt16
  temperatureOutside : UInt16
  humidityOutside : UInt16
deriving Inhabited

def ModbusRegThtb.bytes (r : ModbusRegThtb) : List UInt8 :=
  host [r.temperatureInner, r.humidityInner, r.temperatureOutside, r.humidityOutside]

/-- `MODBUS_REG_TOUCH_EDGE_T`. -/
structure ModbusRegTouchEdge where
  leftAdcVal : UInt16
  leftDistanceVal : UInt16
  rightAdcVal : UInt16
  rightDistanceVal : UInt16
deriving Inhabited

def ModbusRegTouchEdge.bytes (r : ModbusRegTouchEdge) : List UInt8 :=
  host [r.leftAdcVal, r.leftDistanceVal, r.rightAdcVal, r.rightDistanceVal]

/-- `MODBUS_REG_BATTERY_T`. -/
structure ModbusRegBattery (B : BitTypes) where
  voltage : UInt16
  capRemain : Vector UInt8 4
  current : Vector UInt8 4
  tempEnv : UInt16
  cycTime : UInt16
  capFullIn : Vector UInt8 4
  volatagePercent : UInt16
  protect : Vector UInt8 B.staProtectBits
  warming : Vector UInt8 B.staWarmingBits
  tempCell1 : UInt16
deriving Inhabited

def ModbusRegBattery.bytes (r : ModbusRegBattery B) : List UInt8 :=
  host [r.voltage] ++ r.capRemain.toList ++ r.current.toList ++ host [r.tempEnv, r.cycTime] ++
    r.capFullIn.toList ++ host [r.volatagePercent] ++ r.protect.toList ++ r.warming.toList ++
    host [r.tempCell1]

/-- `MODBUS_REG_USOUND_T`. -/
structure ModbusRegUsound where
  dis1Nvg : UInt16
  dis2Nvg : UInt16
  dis3Nvg : UInt16
  dis4Nvg : UInt16
  dis5Nvg : UInt16
  dis6Nvg : UInt16
  dis7Nvg : UInt16
  dis8Nvg : UInt16
  dis1Task : UInt16
  dis2Task : UInt16
  dis3Task : UInt16
  dis4Task : UInt16
  usoundSta : UInt16
deriving Inhabited

def ModbusRegUsound.bytes (r : ModbusRegUsound) : List UInt8 :=
  host [r.dis1Nvg, r.dis2Nvg, r.dis3Nvg, r.dis4Nvg, r.dis5Nvg, r.dis6Nvg, r.dis7Nvg, r.dis8Nvg,
    r.dis1Task, r.dis2Task, r.dis3Task, r.dis4Task, r.usoundSta]

/-- `MODBUS_REG_LUNA_T`. -/
structure ModbusRegLuna where
  dis : UInt16
  laserStrength : UInt16
  temperature : UInt16
deriving Inhabited

def ModbusRegLuna.bytes (r : ModbusRegLuna) : List UInt8 :=
  host [r.dis, r.laserStrength, r.temperature]

/-- `MODBUS_REG_ROBOT_STA_T`. -/
structure ModbusRegRobotSta (B : BitTypes) where
  emerg : UInt16
  crash : UInt16
  motorDrv1 : Vector UInt8 B.motorErrorBits
  motorDrv2 : Vector UInt8 B.motorErrorBits
  perphCon1 : UInt16
  perphCon2 : UInt16
  ioSta : UInt16
  runSta : UInt16
  sensorSta : UInt16
deriving Inhabited

def ModbusRegRobotSta.bytes (r : ModbusRegRobotSta B) : List UInt8 :=
  host [r.emerg, r.crash] ++ r.motorDrv1.toList ++ r.motorDrv2.toList ++
    host [r.perphCon1, r.perphCon2, r.ioSta, r.runSta, r.sensorSta]

/-- `MODBUS_REG_VERSIFON_T`. -/
structure ModbusRegVersion where
  mcu407 : UInt16
  mcu103Nvg : UInt16
  motorDriveSoft : UInt16
  motorDriveHard : UInt16
  date : Vector UInt8 12
  time : Vector UInt8 10
  branch : Vector UInt8 8
  commit : Vector UInt8 8
deriving Inhabited

def ModbusRegVersion.bytes (r : ModbusRegVersion) : List UInt8 :=
  host [r.mcu407, r.mcu103Nvg, r.motorDriveSoft, r.motorDriveHard] ++ r.date.toList ++
    r.time.toList ++ r.branch.toList ++ r.commit.toList

/-- `offsetof(MODBUS_REG_VERSIFON_T, date)`. -/
def ModbusRegVersion.dateOffset : Nat := 8

/-- `MODBUS_REG_RTC_TIME_T`. -/
structure ModbusRegRtcTime where
  sta : UInt16
  ts : ModbusTimestamp
deriving Inhabited

def ModbusRegRtcTime.bytes (r : ModbusRegRtcTime) : List UInt8 := host [r.sta] ++ r.ts.bytes

/-- `MODBUS_PERP_STA_T`. -/
structure ModbusPerpSta where
  staBits : UInt16
  reserve : UInt16
deriving Inhabited

def ModbusPerpSta.bytes (r : ModbusPerpSta) : List UInt8 := host [r.staBits, r.reserve]

/-! ## What other modules measure -/

/-- The errors of `sys_exc_get` that the getters ask for. -/
inductive SysExc where
  | exc05Motor1lLock
  | exc06Motor1rLock
  | exc35NvgSocComTo
  | exc65Emerg
  | exc66Cliff
  | exc67Crash
  | exc68Flood
  | exc69Rain
  | exc70LowPower
deriving DecidableEq

/-- A `float` `x` that is stored with its sign in the highest bit: the absolute value, scaled and
converted to an integer, and whether `x >= 0.0f`. -/
structure Signed (α : Type) where
  fabs : α
  nonneg : Bool
deriving Inhabited

/-- The variables of other modules that the getters read, in the type of the field they are stored
in, and what `sys_exc_get`, `bsp_battery_volatage_percent_get`, `HAL_RTC_GetTime` and
`HAL_RTC_GetDate` return. -/
structure Readings (B : BitTypes) where
  eulerYawRad : Signed UInt16
  eulerGyroZRad : Signed UInt16
  speedMps : Signed UInt16
  odomXCm : Signed UInt32
  odomYCm : Signed UInt32
  odomTotalCm : Signed UInt32
  batteryVoltage : UInt16
  batteryCapRemain : UInt32
  batteryCurrent : UInt32
  batteryTempEnv : UInt16
  batteryCycTime : UInt16
  batteryCapFullIn : UInt32
  batteryVolatagePercent : UInt16
  batteryStaProtect : Vector UInt8 B.staProtectBits
  batteryStaWarming : Vector UInt8 B.staWarmingBits
  batteryTempCell1 : UInt16
  cliffDist : UInt16
  cliffAmp : UInt16
  cliffTemp : UInt16
  robotThtb : ModbusRegThtb
  robotToughEdge : ModbusRegTouchEdge
  nvgUsoundData : Vector UInt16 8
  taskUsoundData : Vector UInt16 4
  sysExcGet : SysExc → UInt8
  rtcYear : UInt8
  rtcMonth : UInt8
  rtcDate : UInt8
  rtcHours : UInt8
  rtcMinutes : UInt8
  rtcSeconds : UInt8
  rtcSecondFraction : UInt32
  rtcSubSeconds : UInt32
deriving Inhabited

/-- The input registers and what the getters read. -/
structure Device (B : BitTypes) where
  modbusInputRegExample : UInt16
  modNvgUpdown : UInt16
  modbusInputRegMotorDriveParas : ModbusRegMotorDriveParas
  modbusInputRegThtb : ModbusRegThtb
  modbusInputRegTouchEdge : ModbusRegTouchEdge
  modbusInputRegBatttery : ModbusRegBattery B
  modbusInputRegUsound : ModbusRegUsound
  modbusInputRegLuna : ModbusRegLuna
  modbusInputRegRobotSta : ModbusRegRobotSta B
  modbusInputRegVersion : ModbusRegVersion
  modbusInputRegRtcTime : ModbusRegRtcTime
  modbusInputRegPerpSta : ModbusPerpSta
  isSpeedCmdZero : Bool
  readings : Readings B
deriving Inhabited

/-! ## Objects and pointers -/

/-- The objects the getters point to. -/
inductive InputObject where
  | example
  | modNvgUpdown
  | motorDriveParas
  | thtb
  | touchEdge
  | batttery
  | usound
  | luna
  | robotSta
  | version
  | rtcTime
  | perpSta
deriving DecidableEq

/-- The bytes of an object. -/
def Device.object (d : Device B) : InputObject → List UInt8
  | .example => host [d.modbusInputRegExample]
  | .modNvgUpdown => host [d.modNvgUpdown]
  | .motorDriveParas => d.modbusInputRegMotorDriveParas.bytes
  | .thtb => d.modbusInputRegThtb.bytes
  | .touchEdge => d.modbusInputRegTouchEdge.bytes
  | .batttery => d.modbusInputRegBatttery.bytes
  | .usound => d.modbusInputRegUsound.bytes
  | .luna => d.modbusInputRegLuna.bytes
  | .robotSta => d.modbusInputRegRobotSta.bytes
  | .version => d.modbusInputRegVersion.bytes
  | .rtcTime => d.modbusInputRegRtcTime.bytes
  | .perpSta => d.modbusInputRegPerpSta.bytes

/-- `sizeof` of an object. -/
def InputObject.size (B : BitTypes) : InputObject → Nat
  | .example => 2
  | .modNvgUpdown => 2
  | .motorDriveParas => 28
  | .thtb => 8
  | .touchEdge => 8
  | .batttery => 22 + B.staProtectBits + B.staWarmingBits
  | .usound => 26
  | .luna => 6
  | .robotSta => 14 + 2 * B.motorErrorBits
  | .version => 46
  | .rtcTime => 12
  | .perpSta => 4

theorem Device.length_object (d : Device B) (o : InputObject) :
    (d.object o).length = o.size B := by
  cases o
  case batttery =>
    simp [object, ModbusRegBattery.bytes, InputObject.size]
    omega
  case robotSta =>
    simp [object, ModbusRegRobotSta.bytes, InputObject.size]
    omega
  all_goals
    simp [object, InputObject.size, ModbusTimestamp.bytes, ModbusRegMotorDriveParas.bytes,
      ModbusRegThtb.bytes, ModbusRegTouchEdge.bytes, ModbusRegUsound.bytes, ModbusRegLuna.bytes,
      ModbusRegVersion.bytes, ModbusRegRtcTime.bytes, ModbusPerpSta.bytes]

section getters
variable (past : InputObject → Device B → Nat → UInt8) (d : Device B)

/-- A pointer into an object of the device. What lies past the object is up to the linker. -/
def pointTo (o : InputObject) (off : Nat) : Pointer := ⟨(d.object o).drop off, past o d⟩

theorem length_pointTo (o : InputObject) (off : Nat) :
    (pointTo past d o off).object.length = o.size B - off := by
  rw [pointTo, List.length_drop, d.length_object]

/-! ## The getters -/

/-- A `uint16_t` and a `uint32_t` field with the sign in the highest bit. -/
def signed16 (x : Signed UInt16) : UInt16 :=
  if x.nonneg then x.fabs &&& ~~~0x8000 else x.fabs ||| 0x8000

def signed32 (x : Signed UInt32) : UInt32 :=
  if x.nonneg then x.fabs &&& ~~~0x80000000 else x.fabs ||| 0x80000000

/-- A `uint32_t` in memory. -/
def le32 (v : UInt32) : Vector UInt8 4 :=
  #v[v.toUInt8, (v >>> 8).toUInt8, (v >>> 16).toUInt8, (v >>> 24).toUInt8]

/-- `data_little2big(data, size)`. -/
def dataLittle2big {size : Nat} (data : Vector UInt8 size) : Vector UInt8 size :=
  (List.range (size / 2)).foldl (fun data i => data.swapIfInBounds i (size - i - 1)) data

/-- `data_reg_change(data, size)` for an even `size` below 256. -/
def dataRegChange {size : Nat} (data : Vector UInt8 size) : Vector UInt8 size :=
  (List.range (size / 2)).foldl (fun data i => data.swapIfInBounds (2 * i) (2 * i + 1)) data

/-- Bit `i` of a bit field set to `b`. -/
def putBit (v : UInt16) (i : UInt16) (b : UInt8) : UInt16 :=
  (v &&& ~~~(1 <<< i)) ||| ((b &&& 1).toUInt16 <<< i)

def modbusInputRegExampleRead : Option Pointer × Device B :=
  let d := { d with modbusInputRegExample := d.modbusInputRegExample + 1 }
  (some (pointTo past d .example 0), d)

def modbusInputRegSocDownCmdRead : Option Pointer × Device B :=
  (some (pointTo past d .modNvgUpdown 0), d)

def modbusInputRegVersionRead : Option Pointer × Device B :=
  (some (pointTo past d .version 0), d)

def modbusInputRegVersion407Read : Option Pointer × Device B :=
  (some (pointTo past d .version ModbusRegVersion.dateOffset), d)

def modbusInputRegMotorDriveParasRead : Option Pointer × Device B :=
  let r := d.readings
  let d := { d with
    modbusInputRegMotorDriveParas := { d.modbusInputRegMotorDriveParas with
      eularYaw := signed16 r.eulerYawRad
      speedW := signed16 r.eulerGyroZRad
      speedV := signed16 r.speedMps
      odomX := dataRegChange (dataLittle2big (le32 (signed32 r.odomXCm)))
      odomY := dataRegChange (dataLittle2big (le32 (signed32 r.odomYCm)))
      odomTotal := dataRegChange (dataLittle2big (le32 (signed32 r.odomTotalCm))) } }
  (some (pointTo past d .motorDriveParas 0), d)

def modbusInputRegBattteryRead : Option Pointer × Device B :=
  let r := d.readings
  let d := { d with
    modbusInputRegBatttery :=
      { voltage := r.batteryVoltage
        capRemain := dataRegChange (dataLittle2big (le32 r.batteryCapRemain))
        current := dataRegChange (dataLittle2big (le32 r.batteryCurrent))
        tempEnv := r.batteryTempEnv
        cycTime := r.batteryCycTime
        capFullIn := dataRegChange (dataLittle2big (le32 r.batteryCapFullIn))
        volatagePercent := r.batteryVolatagePercent
        protect := r.batteryStaProtect
        warming := r.batteryStaWarming
        tempCell1 := r.batteryTempCell1 } }
  (some (pointTo past d .batttery 0), d)

def modbusInputRegLunaRead : Option Pointer × Device B :=
  let r := d.readings
  let d := { d with
    modbusInputRegLuna :=
      { dis := r.cliffDist, laserStrength := r.cliffAmp, temperature := r.cliffTemp } }
  (some (pointTo past d .luna 0), d)

def modbusInputRegThtbRead : Option Pointer × Device B :=
  let d := { d with modbusInputRegThtb := d.readings.robotThtb }
  (some (pointTo past d .thtb 0), d)

def modbusInputRegToughEdgeRead : Option Pointer × Device B :=
  let d := { d with modbusInputRegTouchEdge := d.readings.robotToughEdge }
  (some (pointTo past d .touchEdge 0), d)

def modbusInputRegUsoundRead : Option Pointer × Device B :=
  let nvg := d.readings.nvgUsoundData
  let task := d.readings.taskUsoundData
  let d := { d with
    modbusInputRegUsound :=
      { dis1Nvg := nvg[0]
        dis2Nvg := nvg[1]
        dis3Nvg := nvg[2]
        dis4Nvg := nvg[3]
        dis5Nvg := nvg[4]
        dis6Nvg := nvg[5]
        dis7Nvg := nvg[6]
        dis8Nvg := nvg[7]
        dis1Task := task[0]
        dis2Task := task[1]
        dis3Task := task[2]
        dis4Task := task[3]
        usoundSta := 0 } }
  (some (pointTo past d .usound 0), d)

def modbusInputRegRobotStaRead : Option Pointer × Device B :=
  let exc := d.readings.sysExcGet
  let r := d.modbusInputRegRobotSta
  let d := { d with
    modbusInputRegRobotSta := { r with
      emerg := (exc .exc65Emerg).toUInt16
      crash := (exc .exc67Crash).toUInt16
      motorDrv1 := B.setLock r.motorDrv1 (exc .exc05Motor1lLock) (exc .exc06Motor1rLock)
      ioSta := putBit (putBit r.ioSta 0 (exc .exc65Emerg)) 1 (exc .exc67Crash)
      runSta :=
        if exc .exc65Emerg ≠ 0 then 1
        else if exc .exc66Cliff ≠ 0 then 2
        else if exc .exc67Crash ≠ 0 then 3
        else if exc .exc68Flood ≠ 0 then 4
        else if exc .exc35NvgSocComTo ≠ 0 then 5
        else if d.isSpeedCmdZero then 6
        else if exc .exc05Motor1lLock ≠ 0 ∨ exc .exc06Motor1rLock ≠ 0 then 7
        else if exc .exc70LowPower ≠ 0 then 9
        else 0
      sensorSta :=
        putBit (putBit (putBit (putBit (putBit (putBit r.sensorSta 0 (exc .exc68Flood))
          1 (exc .exc69Rain)) 2 (exc .exc66Cliff)) 3 (exc .exc65Emerg)) 4 (exc .exc67Crash))
          5 (exc .exc70LowPower) } }
  (some (pointTo past d .robotSta 0), d)

def modbusInputRegRtcTimeRead : Option Pointer × Device B :=
  let r := d.readings
  let d := { d with
    modbusInputRegRtcTime :=
      { sta := 0
        ts :=
          { year := r.rtcYear.toUInt16 + 2000
            moon := r.rtcMonth
            date := r.rtcDate
            weekdate := 0
            hour := r.rtcHours
            min := r.rtcMinutes
            second := r.rtcSeconds
            millisecond := ((r.rtcSecondFraction - r.rtcSubSeconds) * 4).toUInt16 } } }
  (some (pointTo past d .rtcTime 0), d)

def modbusInputRegPerpStaRead : Option Pointer × Device B :=
  (some (pointTo past d .perpSta 0), d)

end getters

/-! ## The table -/

/-- `MB_INPUT_REG(reg_addr_s, reg_addr_e, get)`. -/
def mbInputReg {σ : Type} (regAddrS regAddrE : UInt16) (get : σ → Option Pointer × σ) :
    ModbusReg σ :=
  ⟨regAddrS, regAddrE - regAddrS + 1, some get, none⟩

section table
variable (past : InputObject → Device B → Nat → UInt8)

/-- `modebus_read_reg_list`. -/
def modebusReadRegList : List (ModbusReg (Device B)) :=
  [mbInputReg 0x1000 0x1000 (modbusInputRegExampleRead past),
   mbInputReg 0x3002 0x3005 (modbusInputRegThtbRead past),
   mbInputReg 0x3015 0x3018 (modbusInputRegToughEdgeRead past),
   mbInputReg 0x3020 0x302C (modbusInputRegBattteryRead past),
   mbInputReg 0x30A0 0x30A0 (modbusInputRegSocDownCmdRead past),
   mbInputReg 0x30EC 0x30FE (modbusInputRegUsoundRead past),
   mbInputReg 0x3130 0x3133 (modbusInputRegLunaRead past),
   mbInputReg 0x3140 0x3148 (modbusInputRegRobotStaRead past),
   mbInputReg 0x3200 0x320D (modbusInputRegMotorDriveParasRead past),
   mbInputReg 0x3300 0x3307 (modbusInputRegVersionRead past),
   mbInputReg 0x3308 0x3326 (modbusInputRegVersion407Read past),
   mbInputReg 0x3400 0x3405 (modbusInputRegRtcTimeRead past),
   mbInputReg 0x3500 0x3501 (modbusInputRegPerpStaRead past)]

/-- `eMBRegInputCB(pucRegBuffer, usAddress, usNRegs)`. -/
def eMBRegInputCB (pucRegBuffer : List UInt8) (usAddress usNRegs : UInt16) :
    Prog (Device B) MbErrorCode (List UInt8) :=
  eMbregGet (usAddress - 1).toNat usNRegs.toNat (modebusReadRegList past) pucRegBuffer

end table

end McuUtilities.Modbus
