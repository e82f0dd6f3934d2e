import Mitvane.PartialRun

/-! The Cohda proxy: two loops of asynchronous operations over the members of one
handler. The completion of an operation is an input; what it starts is recorded. -/
set_option autoImplicit false

namespace Mitvane.Proxy
open PartialRun

abbrev Buffer := Vector UInt8 2048

inductive AccessCategory where
  | bk | be | vi | vo | unknown
  deriving DecidableEq, Repr

inductive Mk2Priority where
  | prio0 | prio1 | prio3 | prio5 | prio7
  deriving DecidableEq, Repr

/-- A part of one of the two buffers. -/
structure Range where
  offset : Nat
  length : Nat
  deriving DecidableEq, Repr

/-- The proxy header with its accessors, and the types of the radio's interface, as far
as the handler uses them; `w` is the width of `size_t`. -/
structure ProxyApi (w : Nat) (ProxyHeader Power : Type) where
  proxyHeaderSize : BitVec w
  rxDescriptorSize : BitVec w
  headerOf : Buffer → ProxyHeader
  getPayload : ProxyHeader → BitVec w → Range
  getSignalPower : ProxyHeader → Power
  getAccessCategory : ProxyHeader → AccessCategory
  setSignalPower : ProxyHeader → Power → ProxyHeader
  setPayload : ProxyHeader → BitVec w → ProxyHeader
  rxPower : Buffer → Power
  manualPower : Power → Int

structure TxDescriptor where
  priority : Mk2Priority
  manualPower : Int
  deriving DecidableEq, Repr

/-- The members of the handler that operations in flight read or fill. -/
inductive Region where
  | udp2otaBuffer | ota2udpBuffer | mk2Tx | proxyHeader | udpReceiver
  deriving DecidableEq, Repr

/-- The asynchronous operations, each named after the handler that its completion calls. -/
inductive Operation where
  | udpReceiveFrom | udpReceive | otaReceive
  | otaSend : Range → Operation
  | udpSend : Range → Operation
  deriving DecidableEq, Repr

def Operation.regions : Operation → List Region
  | .udpReceiveFrom => [.udp2otaBuffer,.udpReceiver]
  | .udpReceive => [.udp2otaBuffer]
  | .otaReceive => [.ota2udpBuffer]
  | .otaSend _ => [.mk2Tx,.udp2otaBuffer]
  | .udpSend _ => [.proxyHeader,.ota2udpBuffer,.udpReceiver]

inductive Direction where
  | udpToAir | airToUdp
  deriving DecidableEq, Repr

def Operation.direction : Operation → Direction
  | .udpReceiveFrom => .udpToAir
  | .udpReceive => .udpToAir
  | .otaSend _ => .udpToAir
  | .otaReceive => .airToUdp
  | .udpSend _ => .airToUdp

inductive ProxyFault where
  | notOutstanding | unknownAccessCategory
  deriving DecidableEq, Repr

/-- The handler, with the operations in flight. `disturbed` is not a member of the
source: it records that a member was written while an operation on it was in flight. -/
structure ProxyHandler (ProxyHeader Endpoint : Type) where
  udpReceiver : Endpoint
  udp2otaBuffer : Buffer
  ota2udpBuffer : Buffer
  mk2Tx : TxDescriptor
  proxyHeader : ProxyHeader
  pending : List Operation
  disturbed : Bool

variable {w : Nat} {ProxyHeader Power Endpoint : Type}

namespace ProxyHandler

def inFlight (s : ProxyHandler ProxyHeader Endpoint) (r : Region) : Bool :=
  s.pending.any (fun op => r ∈ op.regions)

def writes (s : ProxyHandler ProxyHeader Endpoint) (r : Region) :
    ProxyHandler ProxyHeader Endpoint :=
  { s with disturbed := s.disturbed || s.inFlight r }

/-- An operation in flight may fill its regions at any time, so it must not share one
with another. -/
def start (s : ProxyHandler ProxyHeader Endpoint) (op : Operation) :
    ProxyHandler ProxyHeader Endpoint :=
  { s with
    pending := s.pending ++ [op]
    disturbed := s.disturbed || op.regions.any s.inFlight }

def setMk2Tx (s : ProxyHandler ProxyHeader Endpoint) (f : TxDescriptor → TxDescriptor) :
    ProxyHandler ProxyHeader Endpoint :=
  { s.writes .mk2Tx with mk2Tx := f s.mk2Tx }

def setProxyHeader (s : ProxyHandler ProxyHeader Endpoint) (f : ProxyHeader → ProxyHeader) :
    ProxyHandler ProxyHeader Endpoint :=
  { s.writes .proxyHeader with proxyHeader := f s.proxyHeader }

def fillUdp2ota (s : ProxyHandler ProxyHeader Endpoint) (filled : Buffer) :
    ProxyHandler ProxyHeader Endpoint :=
  { s.writes .udp2otaBuffer with udp2otaBuffer := filled }

def fillOta2udp (s : ProxyHandler ProxyHeader Endpoint) (filled : Buffer) :
    ProxyHandler ProxyHeader Endpoint :=
  { s.writes .ota2udpBuffer with ota2udpBuffer := filled }

def fillUdpReceiver (s : ProxyHandler ProxyHeader Endpoint) (sender : Endpoint) :
    ProxyHandler ProxyHeader Endpoint :=
  { s.writes .udpReceiver with udpReceiver := sender }

def completed (s : ProxyHandler ProxyHeader Endpoint) (op : Operation) :
    ProxyHandler ProxyHeader Endpoint :=
  { s with pending := s.pending.erase op }

def initial (udpReceiver : Endpoint) (udp2otaBuffer ota2udpBuffer : Buffer)
    (proxyHeader : ProxyHeader) : ProxyHandler ProxyHeader Endpoint :=
  ⟨udpReceiver,udp2otaBuffer,ota2udpBuffer,⟨.prio0,40⟩,proxyHeader,[],false⟩

def startTransfer (s : ProxyHandler ProxyHeader Endpoint) : ProxyHandler ProxyHeader Endpoint :=
  s.start .udpReceiveFrom

def nextUdpTransfer (s : ProxyHandler ProxyHeader Endpoint) :
    ProxyHandler ProxyHeader Endpoint :=
  s.start .udpReceive

def nextOtaTransfer (s : ProxyHandler ProxyHeader Endpoint) :
    ProxyHandler ProxyHeader Endpoint :=
  s.start .otaReceive

end ProxyHandler

/-- The switch over the access category; the default branch asserts. -/
def priorityOf : AccessCategory → Option Mk2Priority
  | .bk => some .prio1
  | .be => some .prio3
  | .vi => some .prio5
  | .vo => some .prio7
  | .unknown => none

def sendOta (api : ProxyApi w ProxyHeader Power) (s : ProxyHandler ProxyHeader Endpoint)
    (header : ProxyHeader) (length : BitVec w) :
    Except ProxyFault (ProxyHandler ProxyHeader Endpoint) :=
  let payload := api.getPayload header length
  let power := api.getSignalPower header
  let s := s.setMk2Tx (fun tx => { tx with manualPower := api.manualPower power })
  match priorityOf (api.getAccessCategory header) with
  | none => .error .unknownAccessCategory
  | some priority =>
    let s := s.setMk2Tx (fun tx => { tx with priority := priority })
    .ok (s.start (.otaSend payload))

def sendUdp (api : ProxyApi w ProxyHeader Power) (s : ProxyHandler ProxyHeader Endpoint)
    (signalPower : Power) (offset : Nat) (length : BitVec w) :
    ProxyHandler ProxyHeader Endpoint :=
  let s := s.setProxyHeader (fun hdr => api.setSignalPower hdr signalPower)
  let s := s.setProxyHeader (fun hdr => api.setPayload hdr length)
  s.start (.udpSend ⟨offset,length.toNat⟩)

def handleUdpReceive (api : ProxyApi w ProxyHeader Power)
    (s : ProxyHandler ProxyHeader Endpoint) (ok : Bool) (bytesReceived : BitVec w) :
    Except ProxyFault (ProxyHandler ProxyHeader Endpoint) :=
  if ok ∧ api.proxyHeaderSize ≤ bytesReceived then
    sendOta api s (api.headerOf s.udp2otaBuffer) bytesReceived
  else .ok s.nextUdpTransfer

def handleUdpReceiveFrom (api : ProxyApi w ProxyHeader Power)
    (s : ProxyHandler ProxyHeader Endpoint) (ok : Bool) (bytesReceived : BitVec w) :
    Except ProxyFault (ProxyHandler ProxyHeader Endpoint) :=
  let s := if ok then s.nextOtaTransfer else s
  handleUdpReceive api s ok bytesReceived

def handleUdpSend (s : ProxyHandler ProxyHeader Endpoint) : ProxyHandler ProxyHeader Endpoint :=
  s.nextOtaTransfer

/-- Four bytes of checksum follow the payload; the subtraction is that of `size_t`. -/
def handleOtaReceive (api : ProxyApi w ProxyHeader Power)
    (s : ProxyHandler ProxyHeader Endpoint) (ok : Bool) (bytesReceived : BitVec w) :
    ProxyHandler ProxyHeader Endpoint :=
  if ok ∧ api.rxDescriptorSize ≤ bytesReceived then
    sendUdp api s (api.rxPower s.ota2udpBuffer) api.rxDescriptorSize.toNat
      (bytesReceived - api.rxDescriptorSize - 4)
  else s.nextOtaTransfer

def handleOtaSend (s : ProxyHandler ProxyHeader Endpoint) : ProxyHandler ProxyHeader Endpoint :=
  s.nextUdpTransfer

/-- The completion of an operation: without error or with one, a byte count, and for a
receive operation what it left in its buffer and as the sender. -/
structure Completion (w : Nat) (Endpoint : Type) where
  op : Operation
  ok : Bool
  bytes : BitVec w
  filled : Buffer
  sender : Endpoint

def step (api : ProxyApi w ProxyHeader Power) (s : ProxyHandler ProxyHeader Endpoint)
    (c : Completion w Endpoint) : Except ProxyFault (ProxyHandler ProxyHeader Endpoint) :=
  if c.op ∈ s.pending then
    let s := s.completed c.op
    match c.op with
    | .udpReceiveFrom =>
      handleUdpReceiveFrom api ((s.fillUdp2ota c.filled).fillUdpReceiver c.sender) c.ok c.bytes
    | .udpReceive => handleUdpReceive api (s.fillUdp2ota c.filled) c.ok c.bytes
    | .otaReceive => .ok (handleOtaReceive api (s.fillOta2udp c.filled) c.ok c.bytes)
    | .otaSend _ => .ok (handleOtaSend s)
    | .udpSend _ => .ok (handleUdpSend s)
  else .error .notOutstanding

end Mitvane.Proxy
