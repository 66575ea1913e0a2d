import PacketCraftr.Foundation.Wire

/-!
# Protocols and packet layers

The built-in protocols of `protocol/catalog.rs` and the layers a packet is a stack of. Of a layer
type of the source, a layer here has the fields that the modelled functions read; a built-in layer
of which nothing but its type is read is `Layer.plain`, and a layer of a type that is not built in
is `Layer.foreign`, whatever protocol name its schema uses.
-/

namespace PacketCraftr

/-! ### Built-in protocols -/

inductive BuiltinProtocol
  | ah
  | amqp
  | arp
  | bacnetIp
  | bgp
  | bsdLoop
  | bsdNull
  | cdp
  | coap
  | dhcpv4
  | dhcpv6
  | dnp3
  | dns
  | dtls
  | eap
  | eapol
  | erspan
  | esp
  | etherip
  | ethernet
  | ethernetIp
  | geneve
  | gre
  | gtpu
  | http
  | icmpv4
  | icmpv6
  | iec104
  | igmp
  | ipfix
  | ipv4
  | ipv6
  | ipv6DestinationOptions
  | ipv6Fragment
  | ipv6HopByHop
  | ipv6Srh
  | l2tpv3
  | lacp
  | ldap
  | linuxSll
  | linuxSll2
  | llc
  | lldp
  | malformed
  | memcached
  | modbusTcp
  | mpls
  | mqtt
  | netflowv5
  | ntp
  | opcuaTcp
  | ospfv2
  | ospfv3
  | padding
  | pim
  | ppp
  | pppIpcp
  | pppIpv6cp
  | pppLcp
  | pppoe
  | radius
  | raw
  | rawIp
  | resp
  | ripng
  | ripv2
  | rtcp
  | rtp
  | rtsp
  | sctp
  | sflow
  | sip
  | snap
  | snmp
  | ssdp
  | stp
  | stun
  | syslog
  | tcp
  | tftp
  | tls
  | udp
  | vlan
  | vlan8021ad
  | vrrp
  | vxlan
  deriving DecidableEq, Repr

namespace BuiltinProtocol

/-- Every built-in protocol, in the order of the catalog. -/
def all : List BuiltinProtocol :=
  [.ah, .amqp, .arp, .bacnetIp, .bgp, .bsdLoop, .bsdNull, .cdp, .coap, .dhcpv4, .dhcpv6, .dnp3,
   .dns, .dtls, .eap, .eapol, .erspan, .esp, .etherip, .ethernet, .ethernetIp, .geneve, .gre,
   .gtpu, .http, .icmpv4, .icmpv6, .iec104, .igmp, .ipfix, .ipv4, .ipv6, .ipv6DestinationOptions,
   .ipv6Fragment, .ipv6HopByHop, .ipv6Srh, .l2tpv3, .lacp, .ldap, .linuxSll, .linuxSll2, .llc,
   .lldp, .malformed, .memcached, .modbusTcp, .mpls, .mqtt, .netflowv5, .ntp, .opcuaTcp, .ospfv2,
   .ospfv3, .padding, .pim, .ppp, .pppIpcp, .pppIpv6cp, .pppLcp, .pppoe, .radius, .raw, .rawIp,
   .resp, .ripng, .ripv2, .rtcp, .rtp, .rtsp, .sctp, .sflow, .sip, .snap, .snmp, .ssdp, .stp,
   .stun, .syslog, .tcp, .tftp, .tls, .udp, .vlan, .vlan8021ad, .vrrp, .vxlan]

def asStr : BuiltinProtocol → String
  | .ah => "ah"
  | .amqp => "amqp"
  | .arp => "arp"
  | .bacnetIp => "bacnet_ip"
  | .bgp => "bgp"
  | .bsdLoop => "bsd_loop"
  | .bsdNull => "bsd_null"
  | .cdp => "cdp"
  | .coap => "coap"
  | .dhcpv4 => "dhcpv4"
  | .dhcpv6 => "dhcpv6"
  | .dnp3 => "dnp3"
  | .dns => "dns"
  | .dtls => "dtls"
  | .eap => "eap"
  | .eapol => "eapol"
  | .erspan => "erspan"
  | .esp => "esp"
  | .etherip => "etherip"
  | .ethernet => "ethernet"
  | .ethernetIp => "ethernet_ip"
  | .geneve => "geneve"
  | .gre => "gre"
  | .gtpu => "gtpu"
  | .http => "http"
  | .icmpv4 => "icmpv4"
  | .icmpv6 => "icmpv6"
  | .iec104 => "iec104"
  | .igmp => "igmp"
  | .ipfix => "ipfix"
  | .ipv4 => "ipv4"
  | .ipv6 => "ipv6"
  | .ipv6DestinationOptions => "ipv6_destination_options"
  | .ipv6Fragment => "ipv6_fragment"
  | .ipv6HopByHop => "ipv6_hop_by_hop"
  | .ipv6Srh => "ipv6_srh"
  | .l2tpv3 => "l2tpv3"
  | .lacp => "lacp"
  | .ldap => "ldap"
  | .linuxSll => "linux_sll"
  | .linuxSll2 => "linux_sll2"
  | .llc => "llc"
  | .lldp => "lldp"
  | .malformed => "malformed"
  | .memcached => "memcached"
  | .modbusTcp => "modbus_tcp"
  | .mpls => "mpls"
  | .mqtt => "mqtt"
  | .netflowv5 => "netflowv5"
  | .ntp => "ntp"
  | .opcuaTcp => "opcua_tcp"
  | .ospfv2 => "ospfv2"
  | .ospfv3 => "ospfv3"
  | .padding => "padding"
  | .pim => "pim"
  | .ppp => "ppp"
  | .pppIpcp => "ppp_ipcp"
  | .pppIpv6cp => "ppp_ipv6cp"
  | .pppLcp => "ppp_lcp"
  | .pppoe => "pppoe"
  | .radius => "radius"
  | .raw => "raw"
  | .rawIp => "raw_ip"
  | .resp => "resp"
  | .ripng => "ripng"
  | .ripv2 => "ripv2"
  | .rtcp => "rtcp"
  | .rtp => "rtp"
  | .rtsp => "rtsp"
  | .sctp => "sctp"
  | .sflow => "sflow"
  | .sip => "sip"
  | .snap => "snap"
  | .snmp => "snmp"
  | .ssdp => "ssdp"
  | .stp => "stp"
  | .stun => "stun"
  | .syslog => "syslog"
  | .tcp => "tcp"
  | .tftp => "tftp"
  | .tls => "tls"
  | .udp => "udp"
  | .vlan => "vlan"
  | .vlan8021ad => "vlan8021ad"
  | .vrrp => "vrrp"
  | .vxlan => "vxlan"

/-- The other names a protocol is known by. -/
def aliases : BuiltinProtocol → List String
  | .bsdLoop => ["loop"]
  | .bsdNull => ["null"]
  | .dhcpv4 => ["dhcp"]
  | .dhcpv6 => ["dhcp6"]
  | .ethernet => ["eth", "ether", "ethernet2"]
  | .http => ["http1"]
  | .icmpv4 => ["icmp", "icmp4"]
  | .icmpv6 => ["icmp6"]
  | .ipv4 => ["ip", "ip4"]
  | .ipv6 => ["ip6"]
  | .ipv6DestinationOptions => ["destopts", "destination_options"]
  | .ipv6Fragment => ["fragment6", "frag6"]
  | .ipv6HopByHop => ["hop", "hopopts", "hbh"]
  | .ipv6Srh => ["srh", "segment_routing"]
  | .linuxSll => ["sll"]
  | .linuxSll2 => ["sll2"]
  | .padding => ["pad"]
  | .raw => ["payload", "bytes"]
  | .rawIp => ["rawip"]
  | .tls => ["ssl"]
  | .vlan => ["dot1q", "8021q"]
  | .vlan8021ad => ["dot1ad", "8021ad", "qinq"]
  | _ => []

def fromName (protocol : String) : Option BuiltinProtocol := all.find? fun p => p.asStr == protocol

def fromNameOrAlias (protocol : String) : Option BuiltinProtocol :=
  (fromName protocol).or (all.find? fun p => p.aliases.contains protocol)

def isIpv6Extension : BuiltinProtocol → Bool
  | .ah | .ipv6DestinationOptions | .ipv6Fragment | .ipv6HopByHop | .ipv6Srh => true
  | _ => false

def isEncapsulationBoundary : BuiltinProtocol → Bool
  | .erspan | .etherip | .geneve | .gre | .gtpu | .vxlan => true
  | _ => false

/-- The protocols that have a layer type of which nothing but the type is read. The raw-IP link type
has no layer. -/
def isPlain : BuiltinProtocol → Bool
  | .ah | .arp | .ipv4 | .ipv6 | .ipv6DestinationOptions | .ipv6Fragment | .ipv6HopByHop
  | .ipv6Srh | .malformed | .rawIp => false
  | _ => true

end BuiltinProtocol

/-! ### Field values -/

abbrev Ipv4Addr := BitVec 32

abbrev Ipv6Addr := BitVec 128

/-- The address of four bytes in network order. -/
def Ipv4Addr.ofOctets (a b c d : UInt8) : Ipv4Addr :=
  a.toBitVec ++ b.toBitVec ++ c.toBitVec ++ d.toBitVec

inductive IpAddr
  | v4 (address : Ipv4Addr)
  | v6 (address : Ipv6Addr)
  deriving DecidableEq, Repr

namespace IpAddr

def isIpv4 : IpAddr → Bool
  | .v4 _ => true
  | .v6 _ => false

def isUnspecified : IpAddr → Bool
  | .v4 address => address == 0
  | .v6 address => address == 0

end IpAddr

/-- A field that the builder derives, that has a value, or that is given as bytes. -/
inductive WireValue (α : Type)
  | auto
  | exact (value : α)
  | raw (bytes : Bytes)
  deriving DecidableEq, Repr

/-! ### Layers -/

structure Ipv4 where
  source : Ipv4Addr
  destination : Ipv4Addr
  fragmentOffset : UInt16
  moreFragments : Bool
  options : Bytes
  deriving DecidableEq, Repr

structure Ipv6 where
  source : Ipv6Addr
  destination : Ipv6Addr
  deriving DecidableEq, Repr

structure Fragment where
  fragmentOffset : UInt16
  moreFragments : Bool
  deriving DecidableEq, Repr

structure SegmentRoutingHeader where
  segments : List Ipv6Addr
  segmentsLeft : WireValue UInt8
  lastEntry : WireValue UInt8
  flags : UInt8
  deriving DecidableEq, Repr

structure Arp where
  targetProtocol : Ipv4Addr
  deriving DecidableEq, Repr

/-- Bytes that were kept although they could not be read as the protocol they were meant for. -/
structure Malformed where
  intendedProtocol : Option String
  reason : String
  deriving DecidableEq, Repr

/-- A field of a reflective schema, and whether the layer has a value for it. -/
structure FieldSchema where
  name : String
  aliases : List String
  hasValue : Bool
  deriving DecidableEq, Repr

/-- A layer of a type that is not built in. -/
structure Foreign where
  protocol : String
  fields : List FieldSchema
  deriving DecidableEq, Repr

/-- The field with a given name or alias. -/
def Foreign.field? (layer : Foreign) (name : String) : Option FieldSchema :=
  layer.fields.find? fun declared => declared.name == name || declared.aliases.contains name

inductive Layer
  | ipv4 (header : Ipv4)
  | ipv6 (header : Ipv6)
  | ah
  | ipv6DestinationOptions
  | ipv6HopByHop
  | ipv6Fragment (header : Fragment)
  | ipv6Srh (header : SegmentRoutingHeader)
  | arp (message : Arp)
  | malformed (bytes : Malformed)
  | plain (protocol : { p : BuiltinProtocol // p.isPlain })
  | foreign (layer : Foreign)
  deriving DecidableEq, Repr

/-- The built-in protocol of a layer, by the layer's type and never by its name. -/
def BuiltinProtocol.of : Layer → Option BuiltinProtocol
  | .ipv4 _ => some .ipv4
  | .ipv6 _ => some .ipv6
  | .ah => some .ah
  | .ipv6DestinationOptions => some .ipv6DestinationOptions
  | .ipv6HopByHop => some .ipv6HopByHop
  | .ipv6Fragment _ => some .ipv6Fragment
  | .ipv6Srh _ => some .ipv6Srh
  | .arp _ => some .arp
  | .malformed _ => some .malformed
  | .plain protocol => some protocol
  | .foreign _ => none

def BuiltinProtocol.identifies (protocol : BuiltinProtocol) (layer : Layer) : Bool :=
  BuiltinProtocol.of layer == some protocol

def Layer.isIpv6Extension (layer : Layer) : Bool :=
  (BuiltinProtocol.of layer).any BuiltinProtocol.isIpv6Extension

abbrev Packet := List Layer

end PacketCraftr
