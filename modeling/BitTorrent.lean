import BitTorrent.V2.Leaves
import BitTorrent.Torrent.Confined
import BitTorrent.Torrent.Numbering
import BitTorrent.Create.ReadBack
import BitTorrent.Create.ReadBackV2
import BitTorrent.Session.Verified
import BitTorrent.Session.TrueLayers
import BitTorrent.Utp.Answering
import BitTorrent.Worker.Allowed
import BitTorrent.Worker.GivenBack
import BitTorrent.Worker.Outstanding
import BitTorrent.Worker.QuietSpells
import BitTorrent.Dht.Items
import BitTorrent.Dht.BestItem
import BitTorrent.Dht.Capacity
import BitTorrent.Dht.Queries
import BitTorrent.Dht.Peers
import BitTorrent.Dht.Buckets
import BitTorrent.Mse.Delivery
import BitTorrent.Dht.RoundTrip
import BitTorrent.Session.Redials
import BitTorrent.Serving.Optimistic
import BitTorrent.Serving.Slots
import BitTorrent.Serving.Uploads
import BitTorrent.Daemon.Failures
import BitTorrent.Daemon.Interleavings
import BitTorrent.Daemon.Remembered
import BitTorrent.Utp.Buffers
import BitTorrent.Utp.Closing
import BitTorrent.Utp.PacketCount
import BitTorrent.Utp.Resets
import BitTorrent.RateLimiter
import BitTorrent.Sha256
import BitTorrent.Numbers
