import Mitvane.Vanetza

set_option autoImplicit false

namespace Mitvane

inductive SecurityInfo where
  | noSecurity | signed
  deriving DecidableEq, Repr

structure GeonetData (Area : Type) where
  protocolVersion : UInt32
  nextHeader : NextHeaderBasic
  headerType : HeaderType
  destination : Option Area
  sourcePosition : ShortPositionVector
  securityInfo : SecurityInfo
  certificateId : Option HashedId8
  payloadType : Option UInt8
  secureProtocolVersion : Option UInt8
  signerInfoType : Option SignerInfoType
  chainSize : Option UInt32
  remainingPacketLifetime : UInt8
  maximumHopLimit : UInt8
  remainingHopLimit : UInt8

inductive UpperProtocol where
  | unknown | ipv6 | btpA | btpB
  deriving DecidableEq, Repr

structure BtpData where
  btpType : UpperProtocol
  sourcePort : Option PortType
  destinationPort : PortType
  destinationPortInfo : Option UInt16
  deriving DecidableEq, Repr

/-- Names the heap packet that one call of `run` allocates. -/
abbrev Token := Nat

/-- `payload` is a raw pointer: it names a packet and does not own it. -/
structure DetectionContext (Area : Type) where
  geonetData : GeonetData Area
  btpData : Option BtpData
  appLayerParserPort : PortType
  payload : Token

/-- `DetectionContext ctx;` on storage with the given contents: members without a
default constructor keep what the storage held. -/
def DetectionContext.defaultInit {Area : Type} (storage : DetectionContext Area) :
    DetectionContext Area :=
  { storage with
    geonetData := { storage.geonetData with
      destination := none
      sourcePosition := .default
      certificateId := none
      payloadType := none
      secureProtocolVersion := none
      signerInfoType := none
      chainSize := none
      remainingPacketLifetime := 0 }
    btpData := none }

/-- Ways in which a call does not return. -/
inductive Fault where
  | nullParser | emptyChain | danglingPayload | badGet | exception
  deriving DecidableEq, Repr

end Mitvane
