import Mayhem.Lib.Memory
import Mayhem.Wire
import Mayhem.Rtmp.Chan
import Mayhem.Rtmp.Chunk
import Mayhem.Rtmp.Send
import Mayhem.Rtmp.Message
import Mayhem.Rtmp.Decode
import Mayhem.Rtmp.Server
import Mayhem.Rtmp.RoundTrip
import Mayhem.Lib.Interleave
import Mayhem.Rtmp.Interleave
import Mayhem.Lib.Run
import Mayhem.Lib.Int32
import Mayhem.Lib.Ring
import Mayhem.Rtmp.Client
import Mayhem.Rtmp.Pump
import Mayhem.Rtmp.Buffer
import Mayhem.Rtmp.Segmentation
import Mayhem.Rtmp.Timestamps
import Mayhem.Rtmp.Agreement
import Mayhem.Rtmp.ChunkSize
import Mayhem.Rtmp.Reassembly
import Mayhem.Rtmp.Backpressure
import Mayhem.Rtmp.Intake
import Mayhem.Rtmp.Owner
import Mayhem.Rtmp.Moves
import Mayhem.Rtmp.Accounting
import Mayhem.Rtmp.Discipline
import Mayhem.Rtmp.Served
import Mayhem.Rtmp.Handshake.Client
import Mayhem.Rtmp.Handshake.Server
import Mayhem.Rtmp.Handshake
import Mayhem.Amf.Value
import Mayhem.Amf.Members
import Mayhem.Amf.Object
import Mayhem.Amf.Encode
import Mayhem.Amf.Append
import Mayhem.Amf.Parse
import Mayhem.Amf.Runs
import Mayhem.Amf.Bounds
import Mayhem.Amf.Contained
import Mayhem.Amf.Stored
import Mayhem.Amf.RoundTrip
import Mayhem.Amf.Elements
import Mayhem.Amf.Resend
import Mayhem.Amf.Stores
import Mayhem.Lib.Logged
import Mayhem.Amf.Amf3
import Mayhem.Amf.Amf3Bounds
import Mayhem.Amf.Amf3Wire
import Mayhem.Amf.Amf3Objects
import Mayhem.Lib.Program
import Mayhem.Naiad.Session
import Mayhem.Naiad.Netstatus
import Mayhem.Naiad.Invoke
import Mayhem.Naiad.Safety
import Mayhem.Naiad.Remote
import Mayhem.Naiad.Nested
import Mayhem.Naiad.Silence
import Mayhem.Naiad.Ownership
import Mayhem.Naiad.Streams
import Mayhem.Flv
import Mayhem.Cvars
import Mayhem.Rtmp.Url
import Mayhem.WorkQueue
import Mayhem.Lib.Links
import Mayhem.Nbio.Api
import Mayhem.Nbio.Pump
import Mayhem.Nbio.Lists
import Mayhem.Nbio.Epoll
import Mayhem.Nbio.Dispatch
import Mayhem.Nbio.Poll
import Mayhem.Nbio.Slots
import Mayhem.Nbio.Delivery
import Mayhem.Nbio.Drain
import Mayhem.Nbio.Plugin
import Mayhem.Rtmp.PartialWrites
import Mayhem.Rtmp.Stack
import Mayhem.Rtmp.HeaderReads
import Mayhem.Rtmp.ReadReports
import Mayhem.Rtmp.Lifetime
import Mayhem.Rtmp.Destruction
import Mayhem.Nbio.Deletion
import Mayhem.Rtmp.Projection
import Mayhem.Hgang.Alloc
import Mayhem.Hgang.Sound
import Mayhem.Hgang.Foreach
import Mayhem.Amf.Amf3Integers
import Mayhem.Lib.Ascii
import Mayhem.Hexdump
import Mayhem.Hex2bin
import Mayhem.Rtmp.Stream
import Mayhem.Rtmp.Multiplex
import Mayhem.Rtmp.Delivery
import Mayhem.Rtmp.Requests
import Mayhem.Naiad.Connect
import Mayhem.Lib.Heap
import Mayhem.Amf.Blocks
import Mayhem.Amf.Owned.Values
import Mayhem.Amf.Owned.Objects
import Mayhem.Amf.Owned.Arrays
import Mayhem.Amf.Owned.Invokes
import Mayhem.Amf.Owned.Encode
import Mayhem.Naiad.Builders
import Mayhem.Naiad.Footprint
import Mayhem.Naiad.Outgoing
import Mayhem.Amf.Owned.Parse
import Mayhem.Amf.Owned.Amf3
import Mayhem.Naiad.Incoming
import Mayhem.Dump
