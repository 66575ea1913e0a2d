import PacketCraftr.Tcp.Safety
import PacketCraftr.Tcp.Closing
import PacketCraftr.Tcp.Conservation
import PacketCraftr.Tcp.Expiry
import PacketCraftr.Ip.Growth
import PacketCraftr.Ip.Lifecycle
import PacketCraftr.Ip.Reference
import PacketCraftr.Capture.MergeOrder
import PacketCraftr.Capture.Ticks
import PacketCraftr.Decode.Coverage
import PacketCraftr.Dns.Name
import PacketCraftr.Filter.Correctness
import PacketCraftr.Forwarding.Soundness
import PacketCraftr.Hpack.Peer
import PacketCraftr.Hpack.Updates
import PacketCraftr.Http.Segmentation
import PacketCraftr.Messages.Collector
import PacketCraftr.Policy.Authorization
import PacketCraftr.Scan.Inference
import PacketCraftr.Tls.Conversation
import PacketCraftr.Transform.AddressMap
import PacketCraftr.Evidence.Retention
import PacketCraftr.Capture.Queue
import PacketCraftr.Replay.Schedule
import PacketCraftr.Fuzz.Mutation
import PacketCraftr.Build.Buffer
