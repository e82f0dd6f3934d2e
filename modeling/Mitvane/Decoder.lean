import Mitvane.DetectionContext
import Mitvane.PartialRun

set_option autoImplicit false

namespace Mitvane
variable {Chunk Certificate Area : Type}

inductive TransportType where
  | shb | gbc
  deriving DecidableEq, Repr

structure DataIndication (Area : Type) where
  upperProtocol : UpperProtocol
  trafficClass : UInt8
  transportType : Option TransportType
  sourcePosition : Option ShortPositionVector
  destination : Option Area

structure UpPacketPtr (Chunk : Type) where
  token : Token
  packet : PacketVariant Chunk

/-- Where the ownership of the packet ended up: the packet was destroyed with its
last owner, or `release` left it without one. -/
inductive Fate (Chunk : Type) where
  | disposed : Token → Fate Chunk
  | released : UpPacketPtr Chunk → Fate Chunk

structure Decoded (Chunk Area : Type) where
  context : DetectionContext Area
  fate : Fate Chunk

def BtpData.ofA (hdr : HeaderA) : BtpData where
  btpType := .btpA
  sourcePort := some hdr.sourcePort
  destinationPort := hdr.destinationPort
  destinationPortInfo := none

def BtpData.ofB (hdr : HeaderB) : BtpData where
  btpType := .btpB
  sourcePort := none
  destinationPort := hdr.destinationPort
  destinationPortInfo := some hdr.destinationPortInfo

/-- The packet comes back with the boundary that the BTP parser set. -/
def parseBtpHeader (v : Vanetza Chunk Certificate Area) (ind : DataIndication Area)
    (packet : PacketVariant Chunk) (ctx : DetectionContext Area) :
    Except Fault (PacketVariant Chunk × DetectionContext Area) :=
  match ind.upperProtocol with
  | .btpA =>
    match v.parseBtpA packet with
    | none => .error .exception
    | some (hdr,packet) => .ok (packet,{ ctx with btpData := some (.ofA hdr) })
  | .btpB =>
    match v.parseBtpB packet with
    | none => .error .exception
    | some (hdr,packet) => .ok (packet,{ ctx with btpData := some (.ofB hdr) })
  | _ => .ok (packet,ctx)

/-- `BtpDecoder::decode`: the release at the end does not look at the protocol. -/
def btpDecode (v : Vanetza Chunk Certificate Area) (ind : DataIndication Area)
    (ptr : UpPacketPtr Chunk) (ctx : DetectionContext Area) :
    Except Fault (Decoded Chunk Area) := do
  let (packet,ctx) ← parseBtpHeader v ind ptr.packet ctx
  pure ⟨ctx,.released ⟨ptr.token,packet⟩⟩

def passUp (v : Vanetza Chunk Certificate Area) (ind : DataIndication Area)
    (ptr : UpPacketPtr Chunk) (ctx : DetectionContext Area) :
    Except Fault (Decoded Chunk Area) :=
  btpDecode v ind ptr ctx

/-- The digest is stored as it is, certificates by hash, a chain by its last one. -/
def inspectSignerInfo (v : Vanetza Chunk Certificate Area)
    (msg : SecuredMessage Chunk Certificate) (data : GeonetData Area) :
    Except Fault (GeonetData Area) :=
  let data := { data with
    payloadType := some msg.payloadType
    secureProtocolVersion := some msg.protocolVersion }
  match msg.signerInfo with
  | none => .ok data
  | some info =>
    let data := { data with signerInfoType := some info.getType }
    match info with
    | .certificate cert => .ok { data with certificateId := some (v.calculateHash cert) }
    | .digest d => .ok { data with certificateId := some d }
    | .chain chain =>
      match chain.getLast? with
      | none => .error .emptyChain
      | some cert => .ok { data with
          chainSize := some (UInt32.ofNat chain.length)
          certificateId := some (v.calculateHash cert) }
    | _ => .ok data

/-- The visitor over the extended header. A beacon stores nothing. -/
def visitExtended (v : Vanetza Chunk Certificate Area) (common : CommonHeader)
    (ind : DataIndication Area) (data : GeonetData Area) :
    ExtendedHeader → DataIndication Area × GeonetData Area
  | .shb shb =>
    ({ ind with
        transportType := some .shb
        sourcePosition := some shb.sourcePosition.toShort },
     { data with sourcePosition := shb.sourcePosition.toShort })
  | .geoBroadcast gbc =>
    ({ ind with
        transportType := some .gbc
        sourcePosition := some gbc.sourcePosition.toShort
        destination := some (v.destination gbc common.headerType) },
     { data with
        sourcePosition := gbc.sourcePosition.toShort
        destination := some (v.destination gbc common.headerType) })
  | .beacon _ => (ind,data)

/-- The packet that `finish` hands out is destroyed here unless it is passed up. -/
def decodeExtended (v : Vanetza Chunk Certificate Area) (token : Token)
    (ctx : IndicationContext Chunk) (common : CommonHeader) (ind : DataIndication Area)
    (dctx : DetectionContext Area) : Except Fault (Decoded Chunk Area) :=
  let dctx := { dctx with payload := token }
  match v.parseExtended ctx common.headerType with
  | none => .ok ⟨dctx,.disposed token⟩
  | some extended =>
    let (ind,data) := visitExtended v common ind dctx.geonetData extended
    passUp v ind ⟨token,v.finish ctx⟩ { dctx with geonetData := data }

def upperProtocolOf (next : NextHeaderCommon) : UpperProtocol :=
  if next = .btpA then .btpA
  else if next = .btpB then .btpB
  else if next = .ipv6 then .ipv6
  else .unknown

def decodeCommon (v : Vanetza Chunk Certificate Area) (token : Token)
    (ctx : IndicationContext Chunk) (dctx : DetectionContext Area) :
    Except Fault (Decoded Chunk Area) :=
  match v.parseCommon ctx with
  | none => .ok ⟨dctx,.disposed token⟩
  | some common =>
    decodeExtended v token ctx common
      ⟨upperProtocolOf common.nextHeader,common.trafficClass,none,none,none⟩
      { dctx with geonetData := { dctx.geonetData with
          headerType := common.headerType
          maximumHopLimit := common.maximumHopLimit } }

def securedContext (ctx : IndicationContextBasic Chunk) :
    PacketVariant Chunk → IndicationContext Chunk
  | .chunk packet => .securedCast ctx packet
  | .cohesive packet => .securedDeserialize ctx packet

def decodeSecured (v : Vanetza Chunk Certificate Area) (token : Token)
    (ctx : IndicationContextBasic Chunk) (dctx : DetectionContext Area) :
    Except Fault (Decoded Chunk Area) :=
  match v.parseSecured ctx with
  | none => .ok ⟨dctx,.disposed token⟩
  | some msg => do
    let data ← inspectSignerInfo v msg dctx.geonetData
    decodeCommon v token (securedContext ctx msg.payload) { dctx with geonetData := data }

def decodeBasic (v : Vanetza Chunk Certificate Area) (token : Token)
    (ctx : IndicationContextBasic Chunk) (dctx : DetectionContext Area) :
    Except Fault (Decoded Chunk Area) :=
  match v.parseBasic ctx with
  | none => .ok ⟨dctx,.disposed token⟩
  | some basic =>
    let data := { dctx.geonetData with
      protocolVersion := UInt32.ofNat basic.version.toNat
      remainingPacketLifetime := basic.lifetime
      remainingHopLimit := basic.hopLimit
      nextHeader := basic.nextHeader }
    if basic.nextHeader = .secured then
      decodeSecured v token ctx { dctx with geonetData := { data with securityInfo := .signed } }
    else if basic.nextHeader = .common then
      decodeCommon v token (.basic ctx)
        { dctx with geonetData := { data with securityInfo := .noSecurity } }
    else .ok ⟨{ dctx with geonetData := data },.disposed token⟩

def basicContext (packet : PacketVariant Chunk) (link : LinkLayer) :
    IndicationContextBasic Chunk :=
  match packet with
  | .cohesive packet => .deserialize packet link
  | .chunk packet => .cast packet link

def decode (v : Vanetza Chunk Certificate Area) (ptr : UpPacketPtr Chunk)
    (sender destination : MacAddress) (dctx : DetectionContext Area) :
    Except Fault (Decoded Chunk Area) :=
  decodeBasic v ptr.token (basicContext ptr.packet ⟨sender,destination⟩) dctx

end Mitvane
