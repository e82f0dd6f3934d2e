import Mathlib.Init

/-! The vanetza types that the pipeline handles, and its parsers as parameters.
Enumerations read from the wire keep their raw value: a parser may deliver any. -/
set_option autoImplicit false

namespace Mitvane

abbrev ByteBuffer := List UInt8
abbrev MacAddress := BitVec 48
abbrev PortType := UInt16
abbrev HashedId8 := UInt64

structure EthernetHeader where
  destination : MacAddress
  source : MacAddress
  type : UInt16
  deriving DecidableEq, Repr

def ethertypeGeoNetworking : UInt16 := 0x8947

/-- One contiguous buffer with the ends of the protocol layers marked in it. -/
structure CohesivePacket where
  buffer : ByteBuffer
  boundaries : List Nat
  deriving DecidableEq, Repr

inductive PacketVariant (Chunk : Type) where
  | chunk : Chunk → PacketVariant Chunk
  | cohesive : CohesivePacket → PacketVariant Chunk

structure NextHeaderBasic where
  raw : UInt8
  deriving DecidableEq, Repr

namespace NextHeaderBasic
def any : NextHeaderBasic := ⟨0⟩
def common : NextHeaderBasic := ⟨1⟩
def secured : NextHeaderBasic := ⟨2⟩
end NextHeaderBasic

structure NextHeaderCommon where
  raw : UInt8
  deriving DecidableEq, Repr

namespace NextHeaderCommon
def any : NextHeaderCommon := ⟨0⟩
def btpA : NextHeaderCommon := ⟨1⟩
def btpB : NextHeaderCommon := ⟨2⟩
def ipv6 : NextHeaderCommon := ⟨3⟩
end NextHeaderCommon

structure HeaderType where
  raw : UInt8
  deriving DecidableEq, Repr

namespace HeaderType
def beacon : HeaderType := ⟨0x10⟩
def geoBroadcastCircle : HeaderType := ⟨0x40⟩
def geoBroadcastRect : HeaderType := ⟨0x41⟩
def geoBroadcastElip : HeaderType := ⟨0x42⟩
def tsbSingleHop : HeaderType := ⟨0x50⟩
def tsbMultiHop : HeaderType := ⟨0x51⟩
end HeaderType

structure BasicHeader where
  version : UInt8
  nextHeader : NextHeaderBasic
  lifetime : UInt8
  hopLimit : UInt8
  deriving DecidableEq, Repr

structure CommonHeader where
  nextHeader : NextHeaderCommon
  headerType : HeaderType
  trafficClass : UInt8
  maximumHopLimit : UInt8
  deriving DecidableEq, Repr

/-- Latitude and longitude are in tenths of a microdegree, as on the wire. -/
structure LongPositionVector where
  gnAddr : UInt64
  timestamp : UInt32
  latitude : Int
  longitude : Int
  speed : Int
  heading : Nat
  deriving DecidableEq, Repr

structure ShortPositionVector where
  gnAddr : UInt64
  timestamp : UInt32
  latitude : Int
  longitude : Int
  deriving DecidableEq, Repr

def LongPositionVector.toShort (p : LongPositionVector) : ShortPositionVector :=
  ⟨p.gnAddr,p.timestamp,p.latitude,p.longitude⟩

def ShortPositionVector.default : ShortPositionVector := ⟨0,0,0,0⟩

structure ShbHeader where
  sourcePosition : LongPositionVector
  deriving DecidableEq, Repr

structure GeoBroadcastHeader where
  sourcePosition : LongPositionVector
  areaLatitude : Int
  areaLongitude : Int
  distanceA : UInt16
  distanceB : UInt16
  angle : UInt16
  deriving DecidableEq, Repr

structure BeaconHeader where
  sourcePosition : LongPositionVector
  deriving DecidableEq, Repr

/-- The extended headers vanetza delivers; it has no variant for the other types. -/
inductive ExtendedHeader where
  | shb : ShbHeader → ExtendedHeader
  | geoBroadcast : GeoBroadcastHeader → ExtendedHeader
  | beacon : BeaconHeader → ExtendedHeader
  deriving DecidableEq, Repr

def ExtendedHeader.sourcePosition : ExtendedHeader → LongPositionVector
  | .shb h => h.sourcePosition
  | .geoBroadcast h => h.sourcePosition
  | .beacon h => h.sourcePosition

inductive SignerInfo (Certificate : Type) where
  | self : SignerInfo Certificate
  | digest : HashedId8 → SignerInfo Certificate
  | certificate : Certificate → SignerInfo Certificate
  | chain : List Certificate → SignerInfo Certificate
  | digestOtherAlgorithm : SignerInfo Certificate

inductive SignerInfoType where
  | self | certificateDigestWithSha256 | certificate | certificateChain
  | certificateDigestWithOtherAlgorithm
  deriving DecidableEq, Repr

def SignerInfo.getType {Certificate : Type} : SignerInfo Certificate → SignerInfoType
  | .self => .self
  | .digest _ => .certificateDigestWithSha256
  | .certificate _ => .certificate
  | .chain _ => .certificateChain
  | .digestOtherAlgorithm => .certificateDigestWithOtherAlgorithm

structure SecuredMessage (Chunk Certificate : Type) where
  protocolVersion : UInt8
  signerInfo : Option (SignerInfo Certificate)
  payloadType : UInt8
  payload : PacketVariant Chunk

structure HeaderA where
  destinationPort : PortType
  sourcePort : PortType
  deriving DecidableEq, Repr

structure HeaderB where
  destinationPort : PortType
  destinationPortInfo : UInt16
  deriving DecidableEq, Repr

structure LinkLayer where
  sender : MacAddress
  destination : MacAddress
  deriving DecidableEq, Repr

/-- The contexts on a received packet: deserialize bytes, or cast chunks. -/
inductive IndicationContextBasic (Chunk : Type) where
  | deserialize : CohesivePacket → LinkLayer → IndicationContextBasic Chunk
  | cast : Chunk → LinkLayer → IndicationContextBasic Chunk

/-- The secured contexts read the plaintext payload and keep their parent. -/
inductive IndicationContext (Chunk : Type) where
  | basic : IndicationContextBasic Chunk → IndicationContext Chunk
  | securedDeserialize : IndicationContextBasic Chunk → CohesivePacket → IndicationContext Chunk
  | securedCast : IndicationContextBasic Chunk → Chunk → IndicationContext Chunk

/-- vanetza's parsers. `none` is a null result; for the BTP parsers it is an
exception, and a parsed BTP header moves the boundary in the packet. -/
structure Vanetza (Chunk Certificate Area : Type) where
  decodeEthernetHeader : ByteBuffer → EthernetHeader
  parseBasic : IndicationContextBasic Chunk → Option BasicHeader
  parseSecured : IndicationContextBasic Chunk → Option (SecuredMessage Chunk Certificate)
  parseCommon : IndicationContext Chunk → Option CommonHeader
  parseExtended : IndicationContext Chunk → HeaderType → Option ExtendedHeader
  finish : IndicationContext Chunk → PacketVariant Chunk
  destination : GeoBroadcastHeader → HeaderType → Area
  calculateHash : Certificate → HashedId8
  parseBtpA : PacketVariant Chunk → Option (HeaderA × PacketVariant Chunk)
  parseBtpB : PacketVariant Chunk → Option (HeaderB × PacketVariant Chunk)

end Mitvane
