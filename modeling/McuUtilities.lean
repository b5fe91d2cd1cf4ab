import McuUtilities.Modbus.ReadAfterWrite
import McuUtilities.Modbus.Refusal
import McuUtilities.Modbus.Disclosure
import McuUtilities.Ymodem.LostReply
import McuUtilities.Ymodem.FileData
import McuUtilities.Ymodem.SizeField
import McuUtilities.Ymodem.Accesses
import McuUtilities.Ymodem.Classified
import McuUtilities.Ymodem.Assembly
import McuUtilities.Ymodem.Truthful
import McuUtilities.Fota.Install
import McuUtilities.Fota.Exact
import McuUtilities.Fota.Streaming
import McuUtilities.Fota.CopyVersion
import McuUtilities.Fota.Boots
import McuUtilities.Fota.Rounds
import McuUtilities.Fota.Source
import McuUtilities.Fota.Transient
import McuUtilities.Fota.Bounds
import McuUtilities.Fota.Recovery
import McuUtilities.Fota.Survival
import McuUtilities.Fota.Rollback
import McuUtilities.Fota.RollbackRuns
import McuUtilities.Fota.CopyFaithful
import McuUtilities.Fota.FramedVerify
import McuUtilities.Lib.CrcForward
import McuUtilities.Modbus.Crc16
import McuUtilities.Ymodem.CalcCrc
import McuUtilities.Lib.Swaps
import McuUtilities.Modbus.WireOrder
import McuUtilities.MultiButton.Handler
import McuUtilities.MultiButton.Pairing
import McuUtilities.MultiButton.Clicks
import McuUtilities.FlashDB.FalLog
import McuUtilities.SystemStatus.RunTimeStats
import McuUtilities.Lib.XorLinear
import McuUtilities.Tinycrypt.Tables
import McuUtilities.Lib.RoundCipher
import McuUtilities.Tinycrypt.Aes
import McuUtilities.Tinycrypt.Inverse
import McuUtilities.Tinycrypt.Cfb
import McuUtilities.Modbus.Rtu
import McuUtilities.Modbus.RtuServer
import McuUtilities.Modbus.RtuRuns
import McuUtilities.Modbus.Handlers
import McuUtilities.Modbus.Replies
import McuUtilities.Modbus.Exchange
import McuUtilities.Modbus.InPlace
import McuUtilities.Lib.Linked
import McuUtilities.MultiButton.WorkList
import McuUtilities.MultiButton.Ticks
import McuUtilities.MultiButton.OwnPin
import McuUtilities.Fota.Packaged
import McuUtilities.Lib.LempelZiv
import McuUtilities.FastLz.Format
import McuUtilities.FastLz.Matching
import McuUtilities.FastLz.RoundTrip
import McuUtilities.FastLz.Safety
import McuUtilities.FastLz.Sample
import McuUtilities.Lib.Ring
import McuUtilities.RingBuffer.Lwrb
import McuUtilities.RingBuffer.Interrupts
import McuUtilities.EasyLogger.Async
import McuUtilities.FlashDB.Status
