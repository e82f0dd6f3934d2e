import Mitvane.IdpsContext

/-! The parsers on bytes: an instance of `Vanetza` that reads the wire format of the
GeoNetworking and BTP headers from contiguous packets. Envelopes are read as far as
an unsigned message needs it: no header fields, one short payload. -/
set_option autoImplicit false

namespace Mitvane

def bigEndian (bytes : ByteBuffer) : Nat := bytes.foldl (fun n b => n*256+b.toNat) 0

def numberAt (bytes : ByteBuffer) (offset size : Nat) : Nat :=
  bigEndian ((bytes.drop offset).take size)

def byteAt (bytes : ByteBuffer) (offset : Nat) : UInt8 := UInt8.ofNat (numberAt bytes offset 1)

def degreesAt (bytes : ByteBuffer) (offset : Nat) : Int :=
  if numberAt bytes offset 4 < 2^31 then numberAt bytes offset 4
  else (numberAt bytes offset 4 : Int)-2^32

def basicSize : Nat := 4
def commonSize : Nat := 8

def basicOf (bytes : ByteBuffer) : Option BasicHeader :=
  if bytes.length < basicSize then none else
    some ⟨byteAt bytes 0 >>> 4,⟨byteAt bytes 0 &&& 0x0f⟩,byteAt bytes 2,byteAt bytes 3⟩

def commonOf (bytes : ByteBuffer) : Option CommonHeader :=
  if bytes.length < commonSize then none else
    some ⟨⟨byteAt bytes 0 >>> 4⟩,⟨byteAt bytes 1⟩,byteAt bytes 2,byteAt bytes 6⟩

def longPositionOf (bytes : ByteBuffer) : LongPositionVector where
  gnAddr := UInt64.ofNat (numberAt bytes 0 8)
  timestamp := UInt32.ofNat (numberAt bytes 8 4)
  latitude := degreesAt bytes 12
  longitude := degreesAt bytes 16
  speed := numberAt bytes 20 2 % 2^15
  heading := numberAt bytes 22 2

def extendedSize (ht : HeaderType) : Option Nat :=
  if ht = .tsbSingleHop then some 28
  else if ht ∈ [.geoBroadcastCircle,.geoBroadcastRect,.geoBroadcastElip] then some 44
  else if ht = .beacon then some 24
  else none

def geoBroadcastOf (bytes : ByteBuffer) : GeoBroadcastHeader where
  sourcePosition := longPositionOf (bytes.drop 4)
  areaLatitude := degreesAt bytes 28
  areaLongitude := degreesAt bytes 32
  distanceA := UInt16.ofNat (numberAt bytes 36 2)
  distanceB := UInt16.ofNat (numberAt bytes 38 2)
  angle := UInt16.ofNat (numberAt bytes 40 2)

def extendedOf (bytes : ByteBuffer) (ht : HeaderType) : Option ExtendedHeader :=
  match extendedSize ht with
  | none => none
  | some size =>
    if bytes.length < size then none
    else if ht = .tsbSingleHop then some (.shb ⟨longPositionOf bytes⟩)
    else if ht = .beacon then some (.beacon ⟨longPositionOf bytes⟩)
    else some (.geoBroadcast (geoBroadcastOf bytes))

/-- The packet that a context reads, and where the common header starts in it. -/
def contextPacket : IndicationContext Empty → CohesivePacket × Nat
  | .basic (.deserialize packet _) => (packet,basicSize)
  | .basic (.cast chunk _) => chunk.elim
  | .securedDeserialize _ packet => (packet,0)
  | .securedCast _ chunk => chunk.elim

def basicBytes : IndicationContextBasic Empty → ByteBuffer
  | .deserialize packet _ => packet.buffer
  | .cast chunk _ => chunk.elim

def innerBytes (ctx : IndicationContext Empty) : ByteBuffer :=
  (contextPacket ctx).1.buffer.drop (contextPacket ctx).2

def commonIn (ctx : IndicationContext Empty) : Option CommonHeader := commonOf (innerBytes ctx)

def finishPacket (ctx : IndicationContext Empty) : PacketVariant Empty :=
  .cohesive ⟨(contextPacket ctx).1.buffer,(contextPacket ctx).1.boundaries ++
    [(contextPacket ctx).2+commonSize+
      ((commonIn ctx).bind (fun common => extendedSize common.headerType)).getD 0]⟩

def transportBytes : PacketVariant Empty → ByteBuffer
  | .cohesive packet => packet.buffer.drop (packet.boundaries.getLast?.getD 0)
  | .chunk chunk => chunk.elim

def afterBtp : PacketVariant Empty → PacketVariant Empty
  | .cohesive packet => .cohesive
      ⟨packet.buffer,packet.boundaries ++ [packet.boundaries.getLast?.getD 0+4]⟩
  | .chunk chunk => chunk.elim

def envelopeOf (bytes : ByteBuffer) : Option (SecuredMessage Empty Empty) :=
  if bytes.length < 5 ∨ byteAt bytes 0 ≠ 2 ∨ byteAt bytes 1 ≠ 0 then none
  else if bytes.length < 5+(byteAt bytes 3).toNat then none
  else some ⟨2,none,byteAt bytes 2,
    .cohesive ⟨(bytes.drop 4).take (byteAt bytes 3).toNat,[]⟩⟩

abbrev WireArea := GeoBroadcastHeader × HeaderType

def ethernetHeaderOf (bytes : ByteBuffer) : EthernetHeader where
  destination := BitVec.ofNat 48 (numberAt bytes 0 6)
  source := BitVec.ofNat 48 (numberAt bytes 6 6)
  type := UInt16.ofNat (numberAt bytes 12 2)

def wire : Vanetza Empty Empty WireArea where
  decodeEthernetHeader := ethernetHeaderOf
  parseBasic ctx := basicOf (basicBytes ctx)
  parseSecured ctx := envelopeOf ((basicBytes ctx).drop basicSize)
  parseCommon := commonIn
  parseExtended ctx ht := extendedOf ((innerBytes ctx).drop commonSize) ht
  finish := finishPacket
  destination := Prod.mk
  calculateHash := Empty.elim
  parseBtpA packet :=
    if (transportBytes packet).length < 4 then none else
      some (⟨UInt16.ofNat (numberAt (transportBytes packet) 0 2),
        UInt16.ofNat (numberAt (transportBytes packet) 2 2)⟩,afterBtp packet)
  parseBtpB packet :=
    if (transportBytes packet).length < 4 then none else
      some (⟨UInt16.ofNat (numberAt (transportBytes packet) 0 2),
        UInt16.ofNat (numberAt (transportBytes packet) 2 2)⟩,afterBtp packet)

/-- Circles on a flat map: a metre is about ninety tenths of a microdegree. -/
def flatWithin : IsWithin (Int × Int) := fun lat lon fix radius =>
  (lat-fix.1)^2+(lon-fix.2)^2 ≤ (90*radius)^2

/-- The bytes of a packet: basic header, then what follows it. -/
def plainBytes (next : UInt8) (inner : ByteBuffer) : ByteBuffer := [0x10+next,0,0x1a,1] ++ inner

def envelopeBytes (inner : ByteBuffer) : ByteBuffer :=
  plainBytes 2 ([2,0,0,UInt8.ofNat inner.length] ++ inner ++ [0])

def commonBytes (next ht mhl : UInt8) : ByteBuffer := [16*next,ht,0,0,0,0,mhl,0]

def positionBytes (lat lon : ByteBuffer) : ByteBuffer :=
  [0,0,2,0,0,0,0,1,0,0,0,9] ++ lat ++ lon ++ [0,0,0,0]

def zeroStorage : Storage WireArea where
  context := ⟨⟨0,⟨0⟩,⟨0⟩,none,.default,.noSecurity,none,none,none,none,none,0,0,0⟩,none,0,0⟩
  result := 0
  handleReport := 0

def broadcast (bytes : ByteBuffer) : Arrival WireArea (Int × Int) where
  frame := ⟨⟨bytes,[]⟩,⟨0xffffffffffff,0x020000000001,ethertypeGeoNetworking⟩⟩
  fix := (0,0)
  storage := zeroStorage
  socketOk := true

def shbInner (port : UInt16) : ByteBuffer :=
  commonBytes 2 0x50 1 ++ positionBytes [0,0x98,0x96,0x80] [0,0x98,0x96,0x80] ++ [0,0,0,0] ++
    [UInt8.ofNat (port.toNat/256),UInt8.ofNat port.toNat,0,0]

def camParser : ApplicationLayerParser Empty := ⟨2001,fun _ => true⟩

def camArrival : Arrival WireArea (Int × Int) := broadcast (plainBytes 1 (shbInner 2001))

def securedCamArrival : Arrival WireArea (Int × Int) := broadcast (envelopeBytes (shbInner 2001))

def beaconArrival : Arrival WireArea (Int × Int) :=
  { broadcast (plainBytes 1 (commonBytes 0 0x10 1 ++
      positionBytes [0,0x98,0x96,0x80] [0,0x98,0x96,0x80])) with fix := (10000000,10000000) }

def dropRule (sid : UInt32) (patterns : StdMap String PatternType) : Signature :=
  ⟨.drop,.geoNetworking,⟨"drop",sid,1⟩,patterns⟩

def geonetRules (sigs : List Signature) : SignaturesType :=
  (∅ : SignaturesType).insert .geoNetworking sigs

def camStation (signatures : SignaturesType) : IdpsState Empty :=
  enable (.initial 0 signatures) camParser

end Mitvane
