import Zit.Lib.Run
import Zit.Lib.Progress
import Zit.Lib.Window
import Zit.Lib.Splice
import Zit.Lib.Fallible
import Zit.Lib.Decimal
import Zit.Lib.BigEndian
import Zit.Lib.IStream
import Zit.Lib.Search
import Zit.Lib.Effect
import Zit.Lib.Path
import Zit.Lib.Lexical
import Zit.Lib.Locks
import Zit.Lib.FileSystem
import Zit.Lib.Chunks
import Zit.Lib.Tree
import Zit.Lib.Heap
import Zit.Lib.Indices
import Zit.Lib.Regex
import Zit.Lib.Strtol
import Zit.Lib.Arrival
import Zit.Types
import Zit.Numeric
import Zit.Strings
import Zit.Bitfield
import Zit.Bencode
import Zit.Messages
import Zit.Sha1
import Zit.Torrent
import Zit.Piece
import Zit.FileWriter
import Zit.World
import Zit.Peer
import Zit.Threads
import Zit.FileWriterThread
import Zit.Outgoing
import Zit.Session
import Zit.Connection
import Zit.Download
import Zit.Exchange
import Zit.RetryPeers
import Zit.Tracker
import Zit.Swarm
import Zit.Url
import Zit.ArgParser
import Zit.Http
import Zit.Writer
import Zit.Proof.Bitfield
import Zit.Proof.Indices
import Zit.Proof.Bencode
import Zit.Proof.Canonical
import Zit.Proof.Contain
import Zit.Proof.Position
import Zit.Proof.FileWriter
import Zit.Proof.Split
import Zit.Proof.Piece
import Zit.Proof.Assembly
import Zit.Proof.Answers
import Zit.Proof.Change
import Zit.Proof.Construct
import Zit.Proof.Decoder
import Zit.Proof.Done
import Zit.Proof.Orderly
import Zit.Proof.ReadBack
import Zit.Proof.Accounting
import Zit.Proof.Metadata
import Zit.Proof.ReadBlock
import Zit.Proof.Verify
import Zit.Proof.Writer
import Zit.Proof.Agree
import Zit.Proof.Kept
import Zit.Proof.Select
import Zit.Proof.Range
import Zit.Proof.Lost
import Zit.Proof.Advertise
import Zit.Proof.RetryPeers
import Zit.Proof.RetryPieces
import Zit.Proof.Swarm
import Zit.Proof.Tracker
import Zit.Proof.Announce
import Zit.Proof.Frame
import Zit.Proof.Front
import Zit.Proof.Fields
import Zit.Proof.Greeting
import Zit.Proof.Consumed
import Zit.Proof.Formed
import Zit.Proof.Requests
import Zit.Proof.GetBlock
import Zit.Proof.Calls
import Zit.Proof.Net
import Zit.Proof.Deadlock
import Zit.Proof.Numeric
import Zit.Proof.Packet
import Zit.Proof.Compact
import Zit.Proof.Generator
import Zit.Proof.Url
import Zit.Proof.ArgParser
import Zit.Proof.Chunked
import Zit.Proof.Http
import Zit.Proof.Outgoing
import Zit.Proof.Framing
import Zit.Proof.Segmentation
import Zit.Proof.Handshake
import Zit.Proof.Acceptor
import Zit.Proof.Sha1
import Zit.Proof.FileWriterThread
import Zit.Proof.Stop
import Zit.Proof.Asked
import Zit.Proof.Seeder
import Zit.Proof.Steady
import Zit.Proof.Tracks
import Zit.Proof.Download
import Zit.Proof.Stream
import Zit.Proof.Upload
import Zit.Proof.Exchange
