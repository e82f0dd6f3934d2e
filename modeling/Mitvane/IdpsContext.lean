import Mitvane.Decoder
import Mitvane.GeonetDetector
import Mitvane.MessageHandler

set_option autoImplicit false

namespace Mitvane
open PartialRun
variable {Chunk Certificate Area Fix : Type}

/-- A parser object: its port, and whether `parse` returns on a packet. -/
structure ApplicationLayerParser (Chunk : Type) where
  port : PortType
  parse : PacketVariant Chunk → Bool

/-- Pointers may be null. -/
abbrev PortMap (Chunk : Type) := StdMap PortType (Option (ApplicationLayerParser Chunk))

/-- `Classifier::classify`: `operator[]` inserts a null pointer for a new port. -/
def classify (parsers : PortMap Chunk) (btp : BtpData) :
    Option (ApplicationLayerParser Chunk) × PortMap Chunk :=
  StdMap.subscript parsers btp.destinationPort none

/-- What happened to heap packets: left without an owner, destroyed by the decoder,
taken over by a parser. -/
inductive OwnershipEvent where
  | released : Token → OwnershipEvent
  | disposed : Token → OwnershipEvent
  | handedOver : Token → OwnershipEvent
  deriving DecidableEq, Repr

structure IdpsState (Chunk : Type) where
  appLayerParsers : PortMap Chunk
  localMid : MacAddress
  signatures : SignaturesType
  transmitted : List CohesivePacket
  sent : List ByteBuffer
  log : List String
  ledger : List OwnershipEvent
  nextToken : Token

def IdpsState.initial (localMid : MacAddress) (signatures : SignaturesType) : IdpsState Chunk :=
  ⟨∅,localMid,signatures,[],[],[],[],0⟩

structure Frame where
  packet : CohesivePacket
  header : EthernetHeader
  deriving DecidableEq, Repr

/-- What the stack memory of one call of `run` holds before its locals are set. -/
structure Storage (Area : Type) where
  context : DetectionContext Area
  result : UInt32
  handleReport : UInt32

/-- One call of `run`: the frame, the position fix, the memory it finds and whether
the socket accepts a datagram. -/
structure Arrival (Area Fix : Type) where
  frame : Frame
  fix : Fix
  storage : Storage Area
  socketOk : Bool

def setApplicationLayerParser (s : IdpsState Chunk) (port : PortType)
    (handler : Option (ApplicationLayerParser Chunk)) : IdpsState Chunk :=
  { s with appLayerParsers := s.appLayerParsers.insert port handler }

def enable (s : IdpsState Chunk) (app : ApplicationLayerParser Chunk) : IdpsState Chunk :=
  if app.port ≠ 0 then setApplicationLayerParser s app.port (some app) else s

def disable (s : IdpsState Chunk) (app : ApplicationLayerParser Chunk) : IdpsState Chunk :=
  if app.port ≠ 0 then setApplicationLayerParser s app.port none else s

def transmit (s : IdpsState Chunk) (packet : CohesivePacket) (socketOk : Bool) :
    Except Fault (IdpsState Chunk) :=
  if socketOk then .ok { s with
    transmitted := s.transmitted ++ [packet]
    sent := s.sent ++ [packet.buffer] }
  else .error .exception

def Fate.event : Fate Chunk → OwnershipEvent
  | .disposed token => .disposed token
  | .released ptr => .released ptr.token

def recordDecode (s : IdpsState Chunk) (fate : Fate Chunk) : IdpsState Chunk :=
  { s with ledger := s.ledger ++ [fate.event], nextToken := s.nextToken+1 }

def handOver (s : IdpsState Chunk) (app : ApplicationLayerParser Chunk) (payload : Token) :
    Fate Chunk → Except Fault (IdpsState Chunk)
  | .disposed _ => .error .danglingPayload
  | .released ptr =>
    if ptr.token = payload then
      if app.parse ptr.packet then
        .ok { s with ledger := s.ledger ++ [.handedOver payload] }
      else .error .exception
    else .error .danglingPayload

/-- Steps 2 and 3 of `run`. -/
def applicationStep (s : IdpsState Chunk) (decoded : Decoded Chunk Area) :
    Except Fault (IdpsState Chunk) :=
  match decoded.context.btpData with
  | none => .ok s
  | some btp =>
    let (parser,parsers) := classify s.appLayerParsers btp
    match parser with
    | none => .error .nullParser
    | some app =>
      handOver { s with appLayerParsers := parsers } app decoded.context.payload decoded.fate

/-- Step 4. Without GeoNetworking rules the report stays default initialised. -/
def detectStep (isWithin : IsWithin Fix) (a : Arrival Area Fix) (data : GeonetData Area)
    (signatures : SignaturesType) : Except Fault (DetectionReport × SignaturesType) :=
  if Protocol.geoNetworking ∈ signatures then detect isWithin a.fix data signatures
  else .ok (⟨[],a.storage.result⟩,signatures)

def handleStep (a : Arrival Area Fix) (report : DetectionReport) : UInt32 × List String :=
  if report.result = DetectionResult.detected.code then
    ((handle report.sigs).1.code,(handle report.sigs).2)
  else (a.storage.handleReport,[])

def detectAndForward (isWithin : IsWithin Fix) (s : IdpsState Chunk) (a : Arrival Area Fix)
    (data : GeonetData Area) : Except Fault (IdpsState Chunk) := do
  let (report,signatures) ← detectStep isWithin a data s.signatures
  let (verdict,records) := handleStep a report
  let s := { s with signatures := signatures, log := s.log ++ records }
  if verdict ≠ HandleReport.drop.code then transmit s a.frame.packet a.socketOk else .ok s

def accepts (localMid : MacAddress) (hdr : EthernetHeader) : Bool :=
  hdr.source ≠ localMid && hdr.type = ethertypeGeoNetworking

/-- Step 1: the decoder gets its own copy of the packet. -/
def decodeArrival (v : Vanetza Chunk Certificate Area) (token : Token) (a : Arrival Area Fix) :
    Except Fault (Decoded Chunk Area) :=
  decode v ⟨token,.cohesive a.frame.packet⟩ a.frame.header.source a.frame.header.destination
    a.storage.context.defaultInit

def run (v : Vanetza Chunk Certificate Area) (isWithin : IsWithin Fix) (s : IdpsState Chunk)
    (a : Arrival Area Fix) : Except Fault (IdpsState Chunk) :=
  if accepts s.localMid a.frame.header then do
    let decoded ← decodeArrival v s.nextToken a
    let s ← applicationStep (recordDecode s decoded.fate) decoded
    detectAndForward isWithin s a decoded.context.geonetData
  else .ok s

inductive Call (Chunk Area Fix : Type) where
  | enable : ApplicationLayerParser Chunk → Call Chunk Area Fix
  | disable : ApplicationLayerParser Chunk → Call Chunk Area Fix
  | run : Arrival Area Fix → Call Chunk Area Fix

def step (v : Vanetza Chunk Certificate Area) (isWithin : IsWithin Fix) (s : IdpsState Chunk) :
    Call Chunk Area Fix → Except Fault (IdpsState Chunk)
  | .enable app => .ok (enable s app)
  | .disable app => .ok (disable s app)
  | .run a => run v isWithin s a

end Mitvane
