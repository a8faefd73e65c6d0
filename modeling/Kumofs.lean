import Kumofs.Lib.Run
import Kumofs.Lib.Count
import Kumofs.Lib.Distinct
import Kumofs.Lib.Newest
import Kumofs.Lib.Paired
import Kumofs.Clock
import Kumofs.Hash
import Kumofs.Storage
import Kumofs.Manager
import Kumofs.System.Lookups
import Kumofs.System.Managers
import Kumofs.Sample
import Kumofs.Server.Assign
import Kumofs.Server.Copier
import Kumofs.Server.Replace
import Kumofs.Server.Store
import Kumofs.System.Replace
import Kumofs.System.Store
import Kumofs.System.Race
import Kumofs.System.ReplaceNet
import Kumofs.System.Clocks
import Kumofs.System.Cluster
import Kumofs.System.Storage
import Kumofs.System.Collect
import Kumofs.System.Receiver
import Kumofs.System.Swap
import Kumofs.Gateway.Store
import Kumofs.Gateway.Set
import Kumofs.System.Retry
import Kumofs.Proofs.Hash
import Kumofs.Proofs.Ring
import Kumofs.Proofs.ClockOrder
import Kumofs.Proofs.Clocks
import Kumofs.Proofs.Assign
import Kumofs.Proofs.Lookups
import Kumofs.Proofs.Manager
import Kumofs.Proofs.Stamps
import Kumofs.Proofs.Publish
import Kumofs.Proofs.Storage
import Kumofs.Proofs.Converge
import Kumofs.Proofs.Retention
import Kumofs.Proofs.Collect
import Kumofs.Proofs.Receiver
import Kumofs.Proofs.Copier
import Kumofs.Proofs.Replace
import Kumofs.Proofs.Handler
import Kumofs.Proofs.Store
import Kumofs.Proofs.Durable
import Kumofs.Proofs.Swap
import Kumofs.Proofs.Retry
import Kumofs.Proofs.Agreement
import Kumofs.Proofs.Race
import Kumofs.Proofs.Cluster
import Kumofs.Proofs.Reported
import Kumofs.Proofs.CopyJob
import Kumofs.Proofs.Delete
import Kumofs.Lib.Mirror
import Kumofs.Proofs.Managers
import Kumofs.Proofs.Addresses
import Kumofs.Proofs.Joined
import Kumofs.Proofs.Election
import Kumofs.Proofs.Partners
import Kumofs.Lib.Lock
import Kumofs.Lib.Codec
import Kumofs.Server.Stream
import Kumofs.System.Spaces
import Kumofs.System.Offers
import Kumofs.System.Exchange
import Kumofs.System.Locks
import Kumofs.Gateway.Request
import Kumofs.Proofs.Spaces
import Kumofs.Proofs.Offers
import Kumofs.Proofs.Response
import Kumofs.Proofs.Callback
import Kumofs.Proofs.Deadlock
import Kumofs.Proofs.Stream
import Kumofs.Lib.Stable
import Kumofs.Proofs.Movement
import Kumofs.Lib.Turns
import Kumofs.Gate.Interface
import Kumofs.Gate.Text
import Kumofs.Gate.Binary
import Kumofs.Proofs.Rehash
import Kumofs.Proofs.Text
import Kumofs.Proofs.Binary
import Kumofs.Rpc.Session
import Kumofs.Proofs.Session
import Kumofs.Proofs.Reconnect
import Kumofs.Proofs.Deleted
import Kumofs.Lib.Countdown
import Kumofs.Proofs.Progress
import Kumofs.Gateway.Cache
import Kumofs.System.Cached
import Kumofs.Proofs.Cached
import Kumofs.System.Coordinator
import Kumofs.Proofs.Coordinator
import Kumofs.Lib.Endian
import Kumofs.Record
import Kumofs.Proofs.Record
import Kumofs.Gate.Memproto
import Kumofs.Proofs.Memproto
import Kumofs.Gate.Cloudy
import Kumofs.Gate.Packet
import Kumofs.Proofs.Packet
import Kumofs.Proofs.MultiGet
import Kumofs.Lib.Framing
import Kumofs.Gate.StreamBuffer
import Kumofs.Gate.ReadEvent
import Kumofs.Proofs.StreamBuffer
import Kumofs.Proofs.ReadEvent
import Kumofs.System.Attempts
import Kumofs.Proofs.Attempts
import Kumofs.System.Garbage
import Kumofs.Proofs.Garbage
import Kumofs.System.Merge
import Kumofs.Proofs.Merge
import Kumofs.System.Kumohash
import Kumofs.Proofs.Kumohash
import Kumofs.Lib.Cursor
import Kumofs.System.Tcbdb
import Kumofs.Proofs.Tcbdb
import Kumofs.Proofs.Inflate
import Kumofs.Gate.Memtext
import Kumofs.Gate.Reading
import Kumofs.Proofs.Grammar
import Kumofs.Proofs.Parsing
import Kumofs.Gate.TextConn
import Kumofs.Proofs.Written
import Kumofs.Proofs.TextConn
import Kumofs.Proofs.KeyTable
import Kumofs.Proofs.Words
import Kumofs.Proofs.Exact
import Kumofs.Gate.Envelope
import Kumofs.Proofs.Layout
import Kumofs.Proofs.Envelope
import Kumofs.Wavy.Edge
import Kumofs.Wavy.Output
import Kumofs.Proofs.Output
import Kumofs.Wavy.Core
import Kumofs.Proofs.Core
import Kumofs.Lib.Memory
import Kumofs.System.Source
import Kumofs.Proofs.Source
import Kumofs.Rpc.Cluster
import Kumofs.Proofs.Nodes
import Kumofs.Proofs.Announced
import Kumofs.Rpc.Peers
import Kumofs.Proofs.Peers
import Kumofs.Rpc.Handshake
import Kumofs.Proofs.Handshake
import Kumofs.Rpc.VrefBuffer
import Kumofs.Proofs.VrefBuffer
import Kumofs.Gateway.Spaces
import Kumofs.Proofs.Gateways
import Kumofs.Proofs.Delayed
