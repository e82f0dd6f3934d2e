import Mitvane.PatternReader

set_option autoImplicit false

namespace Mitvane
open PartialRun

inductive MetaReaderStatusCode where
  | success | undefinedMsg | badMsg | undefinedSid | badSid | undefinedRev | badRev
  deriving DecidableEq, Repr

inductive RuleReaderStatusCode where
  | success | brokenRuleStructure | undefinedAction | badAction | undefinedProtocol
  | badProtocol | undefinedMetaData | badMetaData | badPattern
  deriving DecidableEq, Repr

def actionOfText (action : String) : Action :=
  if action = "alert" then .alert
  else if action = "drop" then .drop
  else .notSupportedAction

def readAction (actionNode : Node) : Except YamlException Action := do
  let action ← actionNode.asString
  pure (actionOfText (lower action))

def protocolOfText (protocol : String) : Protocol :=
  if protocol = "geonetworking" ∨ protocol = "geonet" then .geoNetworking
  else if protocol = "btp" then .btp
  else if protocol = "facility" then .facility
  else if protocol = "ca" ∨ protocol = "cam" then .ca
  else if protocol = "den" ∨ protocol = "denm" then .den
  else if protocol = "spat" ∨ protocol = "spatem" ∨ protocol = "tlm" then .spat
  else if protocol = "map" ∨ protocol = "mapem" ∨ protocol = "rlt" then .map
  else .notSupportedProtocol

def readProtocol (protocolNode : Node) : Except YamlException Protocol := do
  let protocol ← protocolNode.asString
  pure (protocolOfText (lower protocol))

def readMetadata (y : Conversions) (metaNode : Node) :
    Except (Failure MetaReaderStatusCode) MetaData := do
  let msgNode ← liftYaml (metaNode.subscript "msg")
  require msgNode.isDefined (.status .undefinedMsg)
  require msgNode.isScalar (.status .badMsg)
  let msg ← liftYaml msgNode.asString
  let sidNode ← liftYaml (metaNode.subscript "sid")
  require sidNode.isDefined (.status .undefinedSid)
  require sidNode.isScalar (.status .badSid)
  let sid ← liftYaml (sidNode.asNumber y.uint32)
  let revNode ← liftYaml (metaNode.subscript "rev")
  -- the source reuses the sid codes for rev
  require revNode.isDefined (.status .undefinedSid)
  require revNode.isScalar (.status .badSid)
  let rev ← liftYaml (revNode.asNumber y.uint16)
  pure ⟨msg,sid,rev⟩

/-- A failed sub-reader becomes one status of the rule reader; exceptions pass. -/
def collapse {σ α : Type} (code : RuleReaderStatusCode) (x : Except (Failure σ) α) :
    Except (Failure RuleReaderStatusCode) α :=
  x.mapError fun
    | .status _ => .status code
    | .exception e => .exception e

def readPatterns (y : Conversions) (rule : Node) (sig : Signature) :
    Except (Failure RuleReaderStatusCode) Signature :=
  match sig.protocol with
  | .geoNetworking => PatternRead.sig <$> collapse .badPattern (readGeonetPattern y rule sig)
  | .facility => PatternRead.sig <$> collapse .badPattern (readFacilityPattern y rule sig)
  | _ => pure sig

/-- The fields that every rule has, read before its patterns. -/
def readHead (y : Conversions) (rule : Node) :
    Except (Failure RuleReaderStatusCode) Signature := do
  let actionNode ← liftYaml (rule.subscript "action")
  require actionNode.isDefined (.status .undefinedAction)
  require actionNode.isScalar (.status .badAction)
  let action ← liftYaml (readAction actionNode)
  require (action ≠ .notSupportedAction) (.status .badAction)
  let protocolNode ← liftYaml (rule.subscript "protocol")
  require protocolNode.isDefined (.status .undefinedProtocol)
  require protocolNode.isScalar (.status .badProtocol)
  let protocol ← liftYaml (readProtocol protocolNode)
  require (protocol ≠ .notSupportedProtocol) (.status .badProtocol)
  let metaNode ← liftYaml (rule.subscript "meta")
  require metaNode.isDefined (.status .undefinedMetaData)
  require metaNode.isMap (.status .badMetaData)
  let metaData ← collapse .badMetaData (readMetadata y metaNode)
  pure ⟨action,protocol,metaData,∅⟩

/-- The body of the rule loop up to the point where the signature is stored. -/
def readRule (y : Conversions) (rule : Node) : Except (Failure RuleReaderStatusCode) Signature := do
  let sig ← readHead y rule
  readPatterns y rule sig

/-- The two append paths: the first signature of a protocol, and later ones. -/
def appendSignature (signatures : SignaturesType) (p : Protocol) (sig : Signature) :
    SignaturesType :=
  match signatures.lookup p with
  | none => signatures.insert p [sig]
  | some sigs => signatures.insert p (sigs ++ [sig])

/-- The switch on the protocol: rules of the other protocols are accepted and dropped. -/
def storeSignature (signatures : SignaturesType) (sig : Signature) : SignaturesType :=
  match sig.protocol with
  | .geoNetworking => appendSignature signatures .geoNetworking sig
  | .facility => appendSignature signatures .facility sig
  | _ => signatures

/-- The caller's map is extended rule by rule; an error status leaves the loop at once. -/
def readRules (y : Conversions) : List Node → SignaturesType →
    Except YamlException (RuleReaderStatusCode × SignaturesType)
  | [], signatures => .ok (.success,signatures)
  | rule :: rules, signatures =>
    match readRule y rule with
    | .ok sig => readRules y rules (storeSignature signatures sig)
    | .error (.status code) => .ok (code,signatures)
    | .error (.exception e) => .error e

/-- `RuleReader::read` on the tree that `YAML::LoadFile` returned. -/
def read (y : Conversions) (ruleset : Node) (signatures : SignaturesType) :
    Except YamlException (RuleReaderStatusCode × SignaturesType) :=
  match ruleset with
  | .map _ =>
    match ruleset.field "rules" with
    | .sequence rules => readRules y rules signatures
    | _ => .ok (.brokenRuleStructure,signatures)
  | _ => .ok (.brokenRuleStructure,signatures)

end Mitvane
