import AmebaLinux.Lib.Bytes
import AmebaLinux.Lib.Prog
import AmebaLinux.Lib.Queue
import AmebaLinux.Lib.Fragments
import AmebaLinux.Lib.Machine
import AmebaLinux.Lib.Ring
import AmebaLinux.Lib.CString
import AmebaLinux.Lib.CJson
import AmebaLinux.Lib.Stores
import AmebaLinux.Lib.Crc
import AmebaLinux.Lib.Montgomery
import AmebaLinux.Lib.Blocks
import AmebaLinux.Lib.Dlist
import AmebaLinux.Lib.StopAndWait
import AmebaLinux.Lib.Stream
import AmebaLinux.Lib.Words
import AmebaLinux.Adb.Sha
import AmebaLinux.Adb.ShaProofs
import AmebaLinux.Adb.Rsa
import AmebaLinux.Adb.RsaProofs
import AmebaLinux.Adb.Packets
import AmebaLinux.Adb.Sockets
import AmebaLinux.Adb.SocketsPair
import AmebaLinux.Adb.SocketsProofs
import AmebaLinux.Adb.Fdevent
import AmebaLinux.Adb.FdeventProofs
import AmebaLinux.Cmds.Efuse
import AmebaLinux.Cmds.EfuseProofs
import AmebaLinux.Cmds.EfuseHex
import AmebaLinux.Cmds.CaptouchFraming
import AmebaLinux.Cmds.CaptouchRxBuffer
import AmebaLinux.Cmds.CaptouchTune
import AmebaLinux.Cmds.CaptouchMonitor
import AmebaLinux.Cmds.CaptouchMonitorProofs
import AmebaLinux.Cmds.CaptouchSamples
import AmebaLinux.Cmds.CaptouchConfig
import AmebaLinux.Cmds.CaptouchBuffers
import AmebaLinux.Cmds.CaptouchDevice
import AmebaLinux.Cmds.CaptouchRequests
import AmebaLinux.Hciattach.Link
import AmebaLinux.Hciattach.LinkProofs
import AmebaLinux.Hciattach.Receiver
import AmebaLinux.Hciattach.ReceiverProofs
import AmebaLinux.Hciattach.ReceiverStatus
import AmebaLinux.Hciattach.PatchV2
import AmebaLinux.Hciattach.PatchV2Proofs
import AmebaLinux.Hciattach.PatchV3
import AmebaLinux.Hciattach.PatchV3Proofs
import AmebaLinux.Hciattach.Attach
import AmebaLinux.Hciattach.AttachProofs
import AmebaLinux.Hciattach.DownloadRun
import AmebaLinux.Hciattach.PatchV2End
import AmebaLinux.Hciattach.DownloadEnd
import AmebaLinux.Hciattach.PatchV3Sections
import AmebaLinux.Hciattach.PatchBounds
import AmebaLinux.Hciattach.BtConfig
import AmebaLinux.Hciattach.BtConfigProofs
import AmebaLinux.Hciattach.BtConfigWritten
import AmebaLinux.Hciattach.Answers
import AmebaLinux.Hciattach.PatchV2Data
import AmebaLinux.Hciattach.PatchV3Data
import AmebaLinux.Hciattach.AttachTruthful
import AmebaLinux.Rcp.Hdlc
import AmebaLinux.Rcp.HdlcProofs
import AmebaLinux.Rcp.HdlcNoise
import AmebaLinux.Rcp.HdlcAccept
import AmebaLinux.Rcp.HdlcCrc
import AmebaLinux.Rcp.Tty
import AmebaLinux.Rcp.TtyProofs
import AmebaLinux.Rcp.FwUpdateSrc
import AmebaLinux.Rcp.FwUpdateSrcRun
import AmebaLinux.Rcp.FwUpdateSrcProofs
import AmebaLinux.Rcp.PayloadGrammar
import AmebaLinux.Rcp.FwUpdateSubProcess
import AmebaLinux.Rcp.ReassemblyProofs
import AmebaLinux.Rcp.FwUpdateProcess
import AmebaLinux.Rcp.FwUpdateProcessProofs
import AmebaLinux.Rcp.FwUpdatePort
import AmebaLinux.Rcp.Config
import AmebaLinux.Rcp.ConfigDialogue
import AmebaLinux.Rcp.ConfigProofs
import AmebaLinux.Rcp.ConfigOrigin
import AmebaLinux.Rcp.FwFiles
import AmebaLinux.Rcp.FwFilesProofs
import AmebaLinux.Rcp.DeviceConfig
import AmebaLinux.Rcp.DeviceConfigProofs
import AmebaLinux.Recovery.Install
import AmebaLinux.Recovery.InstallProofs
import AmebaLinux.Recovery.Options
import AmebaLinux.Recovery.Main
import AmebaLinux.Recovery.MainInputs
import AmebaLinux.Recovery.StorageMount
import AmebaLinux.Recovery.StorageMountProofs
import AmebaLinux.Recovery.StorageOrder
import AmebaLinux.Recovery.StorageRecorded
import AmebaLinux.Recovery.StorageCallback
import AmebaLinux.Recovery.Netlink
import AmebaLinux.Recovery.PartitionInfo
import AmebaLinux.Recovery.Md5
import AmebaLinux.Recovery.ConfigParser
import AmebaLinux.Recovery.ConfigParserProofs
import AmebaLinux.Recovery.CommandLine
