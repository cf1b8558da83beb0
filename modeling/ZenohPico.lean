import ZenohPico.Transport.Reassembly
import ZenohPico.Transport.AtMostOnce
import ZenohPico.Transport.MulticastLease
import ZenohPico.Session.Interests
import ZenohPico.Transport.PeerRead
import ZenohPico.Transport.ClientRead
import ZenohPico.Session.Consolidation
import ZenohPico.Session.QueryLifecycle
import ZenohPico.Session.RemoteEntities
import ZenohPico.Session.WriteFilter
import ZenohPico.Session.RxCache
import ZenohPico.Session.Replay
import ZenohPico.Api.AdvancedKept
import ZenohPico.Api.AdvancedQueries
import ZenohPico.Session.Replies
import ZenohPico.Transport.SnWindowMeaning
import ZenohPico.Transport.LinkWrite
import ZenohPico.Transport.JoinNumbers
import ZenohPico.Collections.LruMap
import ZenohPico.Runtime.WakeUpOrder
import ZenohPico.Keyexpr.InteriorVerbatim
import ZenohPico.Link.SerialRead
import ZenohPico.Api.Heartbeat
import ZenohPico.Collections.Vec
import ZenohPico.Collections.ListLaws
import ZenohPico.Collections.SortedMapRuns
import ZenohPico.Api.QueryParams
import ZenohPico.Api.PublisherDetection
import ZenohPico.Transport.Delivery
import ZenohPico.Session.UuidText
import ZenohPico.Protocol.Config
import ZenohPico.Link.EndpointGrammar
import ZenohPico.Api.Serialization
import ZenohPico.Protocol.WbufReset
import ZenohPico.Collections.TimeRangeGrammar
import ZenohPico.Collections.JsonRuns
import ZenohPico.Network.RoundTrips
import ZenohPico.Network.UnknownExtensions
import ZenohPico.Session.ZintCodec
import ZenohPico.Transport.SequenceArithmetic
import ZenohPico.Collections.ParseNumber
import ZenohPico.Api.EncodingText
import ZenohPico.Link.RawethMapping
import ZenohPico.Collections.StaticPqueue
import ZenohPico.Collections.Refcount
import ZenohPico.Session.CancellationToken
import ZenohPico.Collections.BitVectorBlocks
import ZenohPico.Collections.Channel
import ZenohPico.Transport.UnicastLease
import ZenohPico.Keyexpr.Coherence
