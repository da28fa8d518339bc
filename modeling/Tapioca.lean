import Tapioca.Lib.Bits
import Tapioca.Lib.Lts
import Tapioca.Lib.SlotRing
import Tapioca.Lib.Cobs
import Tapioca.Pioc.Fifo
import Tapioca.Pioc.ClockedBlob
import Tapioca.Util.Ring
import Tapioca.Util.Cobs
import Tapioca.Sniffer.RecordFramer
import Tapioca.Sniffer.ClockedSniffer
import Tapioca.Host.Wire
import Tapioca.Host.MdioCodec
import Tapioca.Host.MdioLib
import Tapioca.Host.FrameHunt
import Tapioca.Host.BitStream
import Tapioca.Host.Envelope
import Tapioca.Sniffer.ClockedOutput
import Tapioca.Sniffer.ClockedFlags
import Tapioca.Sniffer.ClockedSystem
import Tapioca.Sniffer.ClockedSeams
import Tapioca.Host.BurstBits
import Tapioca.Sniffer.ClockedLossless
import Tapioca.Util.RamRing
import Tapioca.Sniffer.RleSniffer
import Tapioca.Sniffer.RleSystem
import Tapioca.Sniffer.RleDrain
import Tapioca.Mdio.Master
import Tapioca.Mdio.MasterIntegrity
import Tapioca.Host.DecoderParity
import Tapioca.Host.OfflineLoss
import Tapioca.Host.WebSniffer
import Tapioca.Host.FeedChunks
import Tapioca.Host.MasterDecode
import Tapioca.Usb.UsbCdc
import Tapioca.Usb.CdcSystem
import Tapioca.Usb.CdcTransmit
import Tapioca.Usb.CdcPipe
import Tapioca.Usb.CdcFlow
import Tapioca.Sniffer.ModeCommand
import Tapioca.Sniffer.ModeSwitch
import Tapioca.Sniffer.TornReads
import Tapioca.Sniffer.RleMarkers
import Tapioca.Sniffer.RleQueue
import Tapioca.Host.CanRle
import Tapioca.Sniffer.RleRoundTrip
import Tapioca.Host.ModeReconcile
import Tapioca.Host.RunFrontEnds
import Tapioca.Sniffer.RleStaging
import Tapioca.Pioc.RleBlob
import Tapioca.Util.RingQueue
import Tapioca.Mdio.Mailbox
import Tapioca.Sniffer.FlushTiming
import Tapioca.Host.MetaSniff
import Tapioca.Mdio.Bridge
import Tapioca.Mdio.BridgeReplies
import Tapioca.Mdio.BridgeSessions
import Tapioca.Util.CobsBuffers
import Tapioca.Host.CobsMirrors
import Tapioca.Sniffer.FrameBounds
import Tapioca.Sniffer.RleCursors
import Tapioca.Sniffer.LossTelemetry
import Tapioca.Sniffer.IdleBoundary
import Tapioca.Sniffer.SquelchBound
import Tapioca.Lib.Within
import Tapioca.Pioc.MasterBlob
import Tapioca.Pioc.MasterFrame
import Tapioca.Pioc.MasterRuns
import Tapioca.Usb.ControlRead
import Tapioca.Mdio.CommandGrammar
import Tapioca.Mdio.LineFraming
import Tapioca.Sniffer.ModeGrammar
import Tapioca.Lib.Stuffing
import Tapioca.Lib.Crc
import Tapioca.Lib.Rounding
import Tapioca.Host.CanFrame
import Tapioca.Host.CanParse
import Tapioca.Host.CanRuns
import Tapioca.Host.CanSplit
import Tapioca.Host.CanCrc
import Tapioca.Host.DiagMonitor
import Tapioca.Lib.Pattern
import Tapioca.Lib.Numeral
import Tapioca.Host.Mdioctl
import Tapioca.Host.MdioctlReplies
import Tapioca.Lib.Waveform
import Tapioca.Host.DmxRle
import Tapioca.Host.DmxPackets
import Tapioca.Host.DmxStream
import Tapioca.Lib.Fields
import Tapioca.Pioc.Assembler
import Tapioca.Pioc.AssemblerWords
import Tapioca.Pioc.AssemblerLabels
import Tapioca.Lib.Splitter
import Tapioca.Host.CanFit
import Tapioca.Host.CanFlush
import Tapioca.Host.CanLive
import Tapioca.Host.CanGate
import Tapioca.Host.CanTraffic
import Tapioca.Host.CanLiveDecode
import Tapioca.Host.WebCan
import Tapioca.Host.WebCanDecode
import Tapioca.Lib.Window
import Tapioca.Host.WebPage
import Tapioca.Host.DmxFramed
import Tapioca.Host.WebDmx
import Tapioca.Host.WebUniverse
import Tapioca.Host.LiveOffline
import Tapioca.Host.LineView
import Tapioca.Host.BusView
import Tapioca.Mdio.MasterLedger
