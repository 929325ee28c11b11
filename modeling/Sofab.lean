import Sofab.Lib.Leb128
import Sofab.VarintRead
import Sofab.VarintWrite
import Sofab.IStream
import Sofab.Lib.Reader
import Sofab.Gluing
import Sofab.Suspension
import Sofab.WireFacts
import Sofab.ArrayRefines
import Sofab.FieldRefines
import Sofab.ParseRefines
import Sofab.Consumption
import Sofab.Blindness
import Sofab.FeedRefines
import Sofab.Decoding
import Sofab.Completion
import Sofab.Restart
import Sofab.Probe
import Sofab.Checked
import Sofab.Faultless
import Sofab.Suspended
import Sofab.Lib.Steps
import Sofab.Lib.Alike
import Sofab.PendingRun
import Sofab.OStream
import Sofab.Emission
import Sofab.Handing
import Sofab.Blocks
import Sofab.StoreLog
import Sofab.Filling
import Sofab.Pushing
import Sofab.Stores
import Sofab.Calls
import Sofab.Framing
import Sofab.Writers
import Sofab.Runs
import Sofab.Capacity
import Sofab.Message
import Sofab.Operations
import Sofab.Sinks
import Sofab.Transparency
import Sofab.Refusals
import Sofab.Laden
import Sofab.Bookkeeping
import Sofab.FloatBits
import Sofab.Bytewise
import Sofab.Kernels
import Sofab.Events
import Sofab.RoundTrip
import Sofab.Replay
import Sofab.Canonical
import Sofab.Seq
import Sofab.Reuse
import Sofab.Placement
import Sofab.Payload
import Sofab.Buffered
import Sofab.Ledger
import Sofab.Arguments
import Sofab.Recovery
import Sofab.Transport
import Sofab.Intact
import Sofab.Lib.Monitor
import Sofab.Session
import Sofab.Contract
import Sofab.Succession
import Sofab.Boundary
import Sofab.Lib.Meter
import Sofab.Volume
import Sofab.Unambiguous
import Sofab.Visitor
import Sofab.Generated.Booleans
import Sofab.Generated.Decoder
import Sofab.Generated.Encoders
import Sofab.Ceilings
import Sofab.Limits
import Sofab.Accumulator
import Sofab.Shortest
import Sofab.Slices
import Sofab.Generated.Growing
import Sofab.Generated.GrowthCases
import Sofab.Generated.Reusing
import Sofab.Generated.Unknown
import Sofab.Contents
import Sofab.Vanishing
import Sofab.StoreLog
import Sofab.Stores
