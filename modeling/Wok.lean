import Wok.Query.Match
import Wok.Ws.Proxies
import Wok.Query.Registry
import Wok.Event.Preimage
import Wok.Relay.SubGate
import Wok.Ws.FrameCodec
import Wok.Db.Backfill
import Wok.Db.Search
import Wok.Db.LocalIds
import Wok.Query.ForStored
import Wok.Query.Schedule
import Wok.Relay.Handover
import Wok.Db.AuthorHeads
import Wok.Negentropy.Accumulator
import Wok.Relay.Connections
import Wok.Db.Stored
