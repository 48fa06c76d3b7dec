import FortyTwoHundred.Lib.Machine
import FortyTwoHundred.Lib.Timed
import FortyTwoHundred.Lib.Insert
import FortyTwoHundred.Lib.Chunk
import FortyTwoHundred.Lib.Padding
import FortyTwoHundred.Lib.SeqNum
import FortyTwoHundred.Lib.GoBackN
import FortyTwoHundred.Lib.Files
import FortyTwoHundred.Lib.Reassembly
import FortyTwoHundred.Lib.StdMap
import FortyTwoHundred.Lib.CString
import FortyTwoHundred.Lib.StableSort
import FortyTwoHundred.Lib.Traced
import FortyTwoHundred.Lib.Linked
import FortyTwoHundred.Lib.Progress
import FortyTwoHundred.Lib.Stdio
import FortyTwoHundred.Memory
import FortyTwoHundred.Ftp.Common
import FortyTwoHundred.Ftp.Request
import FortyTwoHundred.Ftp.Client
import FortyTwoHundred.Ftp.Release
import FortyTwoHundred.Ftp.PacketList
import FortyTwoHundred.Ftp.Window
import FortyTwoHundred.Ftp.Padding
import FortyTwoHundred.Ftp.Server
import FortyTwoHundred.Ftp.Bounds
import FortyTwoHundred.Ftp.Cleanup
import FortyTwoHundred.Ftp.Closing
import FortyTwoHundred.Ftp.Grammar
import FortyTwoHundred.Ftp.Intact
import FortyTwoHundred.Ftp.Session
import FortyTwoHundred.Ftp.Stream
import FortyTwoHundred.Ftp.Transfer
import FortyTwoHundred.Ftp.Wrap
import FortyTwoHundred.Ftp.Lossy
import FortyTwoHundred.Ftp.Recovery
import FortyTwoHundred.Ftp.ClientMemory
import FortyTwoHundred.Ftp.Directory
import FortyTwoHundred.Ftp.Isolation
import FortyTwoHundred.Ftp.PacketLoss
import FortyTwoHundred.Ftp.Deadlines
import FortyTwoHundred.Ftp.Handshake
import FortyTwoHundred.Ftp.Serves
import FortyTwoHundred.Ftp.Site
import FortyTwoHundred.Ftp.Taken
import FortyTwoHundred.Ftp.Foreign
import FortyTwoHundred.Ftp.Listener
import FortyTwoHundred.Ftp.Handlers
import FortyTwoHundred.Ftp.Cascade
import FortyTwoHundred.Srtp.Header
import FortyTwoHundred.Ftp.Codec
import FortyTwoHundred.Srtp.Receive
import FortyTwoHundred.Srtp.InOrder
import FortyTwoHundred.Srtp.Send
import FortyTwoHundred.Srtp.Framing
import FortyTwoHundred.Srtp.Delivery
import FortyTwoHundred.Srtp.StopAndWait
import FortyTwoHundred.Srtp.Establish
import FortyTwoHundred.Srtp.Sockets
import FortyTwoHundred.Srtp.Tables
import FortyTwoHundred.Srtp.Clean
import FortyTwoHundred.Srtp.Demux
import FortyTwoHundred.Srtp.Unread
import FortyTwoHundred.Srtp.Unset
import FortyTwoHundred.Srtp.Failed
import FortyTwoHundred.Srtp.Address
import FortyTwoHundred.Srtp.Inbox
import FortyTwoHundred.Srtp.Pack
import FortyTwoHundred.Srtp.Reads
import FortyTwoHundred.Srtp.Transfer
import FortyTwoHundred.Srtp.FifoNames
import FortyTwoHundred.Srtp.AddrLen
