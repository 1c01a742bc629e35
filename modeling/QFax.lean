import QFax.Efax.FaxPage
import QFax.Efax.ReceiveData
import QFax.Efax.CallSuccess
import QFax.Efax.PageConfirm
import QFax.Efax.Session
import QFax.Efax.PageAccount
import QFax.Efax.LockFile
import QFax.Efax.Retransmission
import QFax.Efax.ReceivedPages
import QFax.Linmodem.FrameStream
import QFax.Linmodem.V90Survivor
import QFax.Linmodem.SerialLink
import QFax.Linmodem.OffHook
import QFax.Linmodem.Traceback
import QFax.Linmodem.V8Agreement
import QFax.Linmodem.Reentrancy
import QFax.Efax.FrameBuffer
import QFax.Efax.PostScript
import QFax.Efax.RunMerge
import QFax.Efax.RunShift
import QFax.Efax.LineForms
import QFax.Efax.LineWidth
import QFax.Efax.TextPages
import QFax.Efax.Pcx
import QFax.Efax.Tiff
import QFax.Linmodem.NearestRing
import QFax.Linmodem.V90Power
import QFax.Linmodem.CpBounds
import QFax.Efax.ReadTotal
import QFax.Efax.LineRecovery
import QFax.Efax.PageGeometry
import QFax.Efax.TextRuns
import QFax.Efax.Reduction
import QFax.Efax.ScanTime
import QFax.Efax.FrameWait
import QFax.Efax.PageTable
import QFax.Efax.Responses
import QFax.Efax.Inversion
import QFax.Linmodem.V8MenuCode
import QFax.Linmodem.V8Cj
import QFax.Linmodem.AnsamTone
import QFax.Linmodem.Timers
import QFax.Linmodem.CpCheck
import QFax.Linmodem.Dialling
import QFax.Linmodem.FrameAccounting
import QFax.Linmodem.V34Modulator
import QFax.Linmodem.FskEnergy
import QFax.Linmodem.CommandMode
import QFax.Efax.Base64
import QFax.Linmodem.FifoRing
import QFax.Efax.PadScale
import QFax.Extmodem.Station
import QFax.Linmodem.FskLink
import QFax.Efax.PageDelivery
import QFax.Efax.LineSession
import QFax.Extmodem.AgwpeSession
import QFax.Extmodem.SampleQueue
