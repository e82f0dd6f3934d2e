import Mitvane.Gateway
import Mitvane.Registration
import Mitvane.RuleFile

/-! `main`: from the command line to the event loop, and what holds in every state that
the event loop gets to. -/
set_option autoImplicit false

namespace Mitvane
open PartialRun
variable {Chunk Certificate Area Real : Type}

inductive Application where
  | ca | den | spat | map
  deriving DecidableEq, Repr

/-- vanetza's `btp::ports` for CAM, DENM, SPAT and TOPO. -/
def Application.port : Application → PortType
  | .ca => 2001
  | .den => 2002
  | .spat => 2004
  | .map => 2003

/-- The command line, with the tree that `YAML::LoadFile` makes of the rule file. -/
structure Options (Real : Type) where
  linkLayer : String
  gnVersion : Nat
  ruleset : Node
  positioning : String
  latitude : Real
  longitude : Real
  posConfidence : Real
  printRxAll : Bool
  printRxCam : Bool
  printRxDenm : Bool
  printRxSpat : Bool
  printRxMap : Bool
  appParsers : List String

/-- What the program finds: how it was built, whether gpsd answers, the time, the value
that vanetza gives a new fix and a new address, and the parsers' bodies, which get the
flag of `print_received_message`. -/
structure Environment (Chunk Real : Type) where
  withGpsd : Bool
  gpsOpens : Bool
  now : Int
  newFix : PositionFix Real
  localMid : MacAddress
  parse : Application → Bool → PacketVariant Chunk → Bool

inductive Exit where
  | noLinkLayer : Exit
  | yaml : YamlException → Exit
  | unsupportedVersion : Exit
  | noPositioning : Exit
  | positioning : Exit

/-- A null pointer ends the program. -/
def orExit {α : Type} (exit : Exit) : Option α → Except Exit α
  | some a => .ok a
  | none => .error exit

@[simp] theorem orExit_eq_ok {α : Type} {exit : Exit} {x : Option α} {a : α} :
    orExit exit x = .ok a ↔ x = some a := by
  cases x <;> simp [orExit]

/-- The branch for `cohda` is compiled under a macro that the build never defines. -/
def createLinkLayer (name : String) : Option RawSocketLink :=
  if name = "ethernet" then some .create else none

def createPositionProvider (env : Environment Chunk Real) (o : Options Real) :
    Except Exit (Option (Positioning Real)) :=
  if o.positioning = "gpsd" then
    if env.withGpsd then
      if env.gpsOpens then .ok (some (.gpsd ⟨env.newFix,1⟩)) else .error .positioning
    else .ok none
  else if o.positioning = "static" then
    .ok (some (.stored { env.newFix with
      timestamp := env.now
      latitude := o.latitude
      longitude := o.longitude
      confidence := { env.newFix.confidence with
        semiMajor := o.posConfidence
        semiMinor := o.posConfidence } }))
  else .ok none

/-- The first branch asks for `print-rx-denm` like the second; nothing asks for
`print-rx-cam`. -/
def createParser (env : Environment Chunk Real) (o : Options Real) (name : String) :
    Option (ApplicationLayerParser Chunk) :=
  if name = "ca" then
    some ⟨Application.ca.port,env.parse .ca (o.printRxDenm || o.printRxAll)⟩
  else if name = "den" then
    some ⟨Application.den.port,env.parse .den (o.printRxDenm || o.printRxAll)⟩
  else if name = "spat" then
    some ⟨Application.spat.port,env.parse .spat (o.printRxSpat || o.printRxAll)⟩
  else if name = "map" then
    some ⟨Application.map.port,env.parse .map (o.printRxMap || o.printRxAll)⟩
  else none

def Application.name : Application → String
  | .ca => "ca"
  | .den => "den"
  | .spat => "spat"
  | .map => "map"

def Options.prints (o : Options Real) : Application → Bool
  | .ca => o.printRxDenm || o.printRxAll
  | .den => o.printRxDenm || o.printRxAll
  | .spat => o.printRxSpat || o.printRxAll
  | .map => o.printRxMap || o.printRxAll

def Application.parser (env : Environment Chunk Real) (o : Options Real) (a : Application) :
    ApplicationLayerParser Chunk :=
  ⟨a.port,env.parse a (o.prints a)⟩

/-- `std::map` with its entries in the order of the keys. -/
abbrev AppParsers (Chunk : Type) := List (String × ApplicationLayerParser Chunk)

def AppParsers.emplace (name : String) (app : ApplicationLayerParser Chunk) :
    AppParsers Chunk → AppParsers Chunk
  | [] => [(name,app)]
  | entry :: rest =>
    if name < entry.1 then (name,app) :: entry :: rest
    else entry :: AppParsers.emplace name app rest

def collectParsers (env : Environment Chunk Real) (o : Options Real) :
    List String → AppParsers Chunk → AppParsers Chunk
  | [], apps => apps
  | name :: names, apps =>
    if name ∈ apps.map Prod.fst then collectParsers env o names apps
    else match createParser env o name with
      | some app => collectParsers env o names (apps.emplace name app)
      | none => collectParsers env o names apps

def enableAll (s : IdpsState Chunk) (apps : AppParsers Chunk) : IdpsState Chunk :=
  apps.foldl (fun s entry => enable s entry.2) s

/-- The status of the rule reader is printed and not looked at. -/
def start (y : Conversions) (env : Environment Chunk Real) (o : Options Real) :
    Except Exit (Gateway Chunk Real) := do
  let source ← orExit .noLinkLayer (createLinkLayer o.linkLayer)
  let (_,signatures) ← (read y o.ruleset ∅).mapError .yaml
  let _ ← require (o.gnVersion = 0 || o.gnVersion = 1) .unsupportedVersion
  let provider ← createPositionProvider env o
  let positioning ← orExit .noPositioning provider
  pure ⟨source.indicate,.create,
    enableAll (.initial env.localMid signatures) (collectParsers env o o.appParsers []),
    positioning,1,false⟩

def Options.timers (o : Options Real) : Nat := if o.positioning = "gpsd" then 1 else 0

/-- Where the start leads to, if it does. -/
structure Started (y : Conversions) (env : Environment Chunk Real) (o : Options Real)
    (g : Gateway Chunk Real) : Prop where
  source : g.source.callback = true ∧ g.source.receives = 1
  destination : g.destination.callback = false ∧ g.destination.receives = 1
  waits : g.positioning.waits = o.timers
  signals : g.signalWaits = 1
  running : g.stopped = false
  context : ∃ code signatures, read y o.ruleset ∅ = .ok (code,signatures) ∧
    g.context = enableAll (.initial env.localMid signatures)
      (collectParsers env o o.appParsers [])

section
variable {y : Conversions} {env : Environment Chunk Real} {o : Options Real}
  {g : Gateway Chunk Real}

theorem createPositionProvider_waits {positioning : Positioning Real}
    (h : createPositionProvider env o = .ok (some positioning)) :
    positioning.waits = o.timers := by
  unfold createPositionProvider at h
  unfold Options.timers
  split at h
  · rename_i hgpsd
    rw [if_pos hgpsd]
    split at h
    · split at h
      · cases h
        rfl
      · cases h
    · cases h
  · rename_i hother
    rw [if_neg hother]
    split at h
    · cases h
      rfl
    · cases h

theorem Options.timers_le (o : Options Real) : o.timers ≤ 1 := by
  unfold timers
  split <;> decide

theorem createLinkLayer_eq_some {name : String} {link : RawSocketLink}
    (h : createLinkLayer name = some link) : link = .create := by
  unfold createLinkLayer at h
  split at h
  · cases h
    rfl
  · cases h

theorem start_ok (h : start y env o = .ok g) : Started y env o g := by
  unfold start at h
  simp only [bind_eq_ok,mapError_eq_ok,orExit_eq_ok] at h
  obtain ⟨source,hlink,⟨code,signatures⟩,hread,_,_,provider,hpos,positioning,rfl,hret⟩ := h
  cases hret
  rw [createLinkLayer_eq_some hlink]
  exact ⟨⟨rfl,rfl⟩,⟨rfl,rfl⟩,createPositionProvider_waits hpos,rfl,rfl,code,signatures,hread,rfl⟩

theorem Started.listening (h : Started y env o g) :
    Listening o.timers g ([] : List (Event Area Real)) :=
  ⟨h.source.2,h.destination.2,h.waits,h.signals,h.running⟩

theorem AppParsers.mem_emplace {name : String} {app : ApplicationLayerParser Chunk}
    {apps : AppParsers Chunk} {entry : String × ApplicationLayerParser Chunk} :
    entry ∈ apps.emplace name app ↔ entry = (name,app) ∨ entry ∈ apps := by
  induction apps with
  | nil => simp [emplace]
  | cons first rest ih =>
    unfold emplace
    split
    · simp
    · simp only [List.mem_cons,ih]
      constructor
      · rintro (h | h | h)
        · exact .inr (.inl h)
        · exact .inl h
        · exact .inr (.inr h)
      · rintro (h | h | h)
        · exact .inr (.inl h)
        · exact .inl h
        · exact .inr (.inr h)

theorem mem_collectParsers {names : List String} {apps : AppParsers Chunk}
    (happs : ∀ entry ∈ apps, createParser env o entry.1 = some entry.2)
    {entry : String × ApplicationLayerParser Chunk} :
    entry ∈ collectParsers env o names apps ↔
      entry ∈ apps ∨ (entry.1 ∈ names ∧ createParser env o entry.1 = some entry.2) := by
  induction names generalizing apps with
  | nil => simp [collectParsers]
  | cons name names ih =>
    rw [List.mem_cons,or_and_right,← or_assoc]
    unfold collectParsers
    split
    · rename_i hmem
      have hold : entry.1 = name ∧ createParser env o entry.1 = some entry.2 → entry ∈ apps := by
        intro ⟨heq,hc⟩
        obtain ⟨old,hin,hname⟩ := List.mem_map.mp hmem
        have hsame := happs old hin
        rw [hname,← heq,hc] at hsame
        have hentry : entry = old := Prod.ext (heq.trans hname.symm) (Option.some.inj hsame)
        exact hentry ▸ hin
      rw [ih happs,or_iff_left_of_imp hold]
    · cases hc : createParser env o name with
      | none =>
        have hnone : ¬ (entry.1 = name ∧ createParser env o entry.1 = some entry.2) := by
          rintro ⟨heq,hc'⟩
          rw [heq,hc] at hc'
          cases hc'
        rw [or_iff_left hnone]
        exact ih happs
      | some app =>
        have hnew : entry = (name,app) ↔
            entry.1 = name ∧ createParser env o entry.1 = some entry.2 := by
          constructor
          · rintro rfl
            exact ⟨rfl,hc⟩
          · rintro ⟨heq,hc'⟩
            rw [heq,hc] at hc'
            exact Prod.ext heq (Option.some.inj hc').symm
        have happs' : ∀ e ∈ apps.emplace name app, createParser env o e.1 = some e.2 := by
          intro e he
          rcases AppParsers.mem_emplace.mp he with rfl | he
          · exact hc
          · exact happs e he
        rw [← hnew,or_comm (a := entry ∈ apps),← AppParsers.mem_emplace]
        exact ih happs'

theorem mem_enabledParsers {entry : String × ApplicationLayerParser Chunk} :
    entry ∈ collectParsers env o o.appParsers [] ↔
      entry.1 ∈ o.appParsers ∧ createParser env o entry.1 = some entry.2 := by
  rw [mem_collectParsers (by simp)]
  simp

theorem createParser_eq_some {name : String} {app : ApplicationLayerParser Chunk} :
    createParser env o name = some app ↔
      ∃ a : Application, a.name = name ∧ a.parser env o = app := by
  constructor
  · intro h
    unfold createParser at h
    split at h
    · rename_i hn
      exact ⟨.ca,hn.symm,Option.some.inj h⟩
    · split at h
      · rename_i hn
        exact ⟨.den,hn.symm,Option.some.inj h⟩
      · split at h
        · rename_i hn
          exact ⟨.spat,hn.symm,Option.some.inj h⟩
        · split at h
          · rename_i hn
            exact ⟨.map,hn.symm,Option.some.inj h⟩
          · cases h
  · rintro ⟨a,rfl,rfl⟩
    cases a <;> rfl

theorem Application.port_injective {a b : Application} (h : a.port = b.port) : a = b := by
  cases a <;> cases b <;> first
    | rfl
    | cases h

theorem enableAll_parserAt (s : IdpsState Chunk) (apps : AppParsers Chunk) (port : PortType) :
    parserAt (enableAll s apps).appLayerParsers port = apps.foldl (fun current entry =>
      if entry.2.port ≠ 0 ∧ entry.2.port = port then some entry.2 else current)
        (parserAt s.appLayerParsers port) := by
  induction apps generalizing s with
  | nil => rfl
  | cons entry apps ih =>
    have hone : parserAt (enable s entry.2).appLayerParsers port =
        if entry.2.port ≠ 0 ∧ entry.2.port = port then some entry.2
        else parserAt s.appLayerParsers port := by
      by_cases hp : entry.2.port = 0
      · simp [enable,hp]
      · simp [enable,hp,setApplicationLayerParser,parserAt_insert]
    rw [List.foldl_cons,← hone]
    exact ih (enable s entry.2)

theorem foldl_last_hit {α β : Type} (test : α → Bool) (value : α → β) (xs : List α)
    (start : Option β) : (∀ b, xs.foldl (fun current x => if test x then some (value x)
      else current) start = some b → start = some b ∨ ∃ x ∈ xs, test x = true ∧ value x = b) ∧
    ((start.isSome = true ∨ ∃ x ∈ xs, test x = true) → (xs.foldl (fun current x =>
      if test x then some (value x) else current) start).isSome = true) := by
  induction xs generalizing start with
  | nil => simp
  | cons x xs ih =>
    obtain ⟨hfrom,hsome⟩ := ih (if test x then some (value x) else start)
    rw [List.foldl_cons]
    constructor
    · intro b hb
      rcases hfrom b hb with h | ⟨x',hx',ht,hv⟩
      · cases ht : test x with
        | false => exact .inl (by simpa [ht] using h)
        | true => exact .inr ⟨x,by simp,ht,by simpa [ht] using h⟩
      · exact .inr ⟨x',by simp [hx'],ht,hv⟩
    · rintro (h | ⟨x',hx',ht⟩)
      · apply hsome
        left
        split
        · rfl
        · exact h
      · rcases List.mem_cons.mp hx' with rfl | hx'
        · exact hsome (.inl (by simp [ht]))
        · exact hsome (.inr ⟨x',hx',ht⟩)

/-- A new context serves the ports of the requested applications and no others. -/
theorem parserAt_enabled (localMid : MacAddress) (signatures : SignaturesType)
    (port : PortType) (app : ApplicationLayerParser Chunk) :
    parserAt (enableAll (.initial localMid signatures)
      (collectParsers env o o.appParsers [])).appLayerParsers port = some app ↔
    ∃ a : Application, a.name ∈ o.appParsers ∧ a.port = port ∧ a.parser env o = app := by
  rw [enableAll_parserAt]
  have hfold := foldl_last_hit (fun entry : String × ApplicationLayerParser Chunk =>
    decide (entry.2.port ≠ 0 ∧ entry.2.port = port)) Prod.snd
    (collectParsers env o o.appParsers []) (parserAt (IdpsState.initial localMid
      signatures : IdpsState Chunk).appLayerParsers port)
  simp only [decide_eq_true_eq] at hfold
  obtain ⟨hfrom,hsome⟩ := hfold
  have hempty : parserAt (IdpsState.initial localMid
      signatures : IdpsState Chunk).appLayerParsers port = none := rfl
  constructor
  · intro h
    rcases hfrom app h with hn | ⟨entry,hmem,⟨_,hport⟩,rfl⟩
    · rw [hempty] at hn
      cases hn
    · obtain ⟨hname,hc⟩ := mem_enabledParsers.mp hmem
      obtain ⟨a,ha,happ⟩ := createParser_eq_some.mp hc
      exact ⟨a,ha ▸ hname,by rw [← hport,← happ]; rfl,happ⟩
  · rintro ⟨a,hname,rfl,rfl⟩
    have hmem : (a.name,a.parser env o) ∈ collectParsers env o o.appParsers [] :=
      mem_enabledParsers.mpr ⟨hname,createParser_eq_some.mpr ⟨a,rfl,rfl⟩⟩
    have hzero : a.port ≠ 0 := by cases a <;> decide
    obtain ⟨app,happ⟩ := Option.isSome_iff_exists.mp (hsome (.inr ⟨_,hmem,hzero,rfl⟩))
    rcases hfrom app happ with hn | ⟨entry,hin,⟨_,hport⟩,rfl⟩
    · rw [hempty] at hn
      cases hn
    · obtain ⟨b,_,hb⟩ := createParser_eq_some.mp (mem_enabledParsers.mp hin).2
      rw [← hb] at hport
      have hab : b = a := Application.port_injective hport
      rw [happ,← hb,hab]

end

def Event.onSource : Event Area Real → Bool
  | .sourceRead _ _ _ => true
  | _ => false

def Event.onDestination : Event Area Real → Bool
  | .destinationRead _ _ _ => true
  | _ => false

section
variable {v : Vanetza Chunk Certificate Area} {isWithin : IsWithin (PositionFix Real)}
  {r : GpsReals Real} {g t : Gateway Chunk Real} {events : List (Event Area Real)}

theorem handUp_parserAt {fix : PositionFix Real} {storage : Storage Area} {socketOk : Bool}
    {s s' : IdpsState Chunk} {frame : Option Frame} (h : RawSocketLink.handUp
      (Gateway.indication v isWithin fix storage socketOk) s frame = .ok s') (port : PortType) :
    parserAt s'.appLayerParsers port = parserAt s.appLayerParsers port := by
  rcases RawSocketLink.handUp_ok h with ⟨_,rfl⟩ | ⟨_,_,hrun⟩
  · rfl
  · exact run_parserAt hrun port

theorem Gateway.reaches_parserAt (h : Reaches (Gateway.step v isWithin r) g events t)
    (port : PortType) :
    parserAt t.context.appLayerParsers port = parserAt g.context.appLayerParsers port := by
  induction h with
  | nil => rfl
  | snoc _ hs ih =>
    rw [← ih]
    cases (Gateway.step_round hs).2 with
    | source _ _ _ hup => exact handUp_parserAt hup port
    | destination _ _ _ hup => exact handUp_parserAt hup port
    | _ => rfl

end

def networkPacket (packet : CohesivePacket) : CohesivePacket :=
  ⟨packet.buffer.drop (packet.boundaries.getLast?.getD 0),[]⟩

def networkBasic : IndicationContextBasic Empty → IndicationContextBasic Empty
  | .deserialize packet link => .deserialize (networkPacket packet) link
  | .cast chunk _ => chunk.elim

def networkContext : IndicationContext Empty → IndicationContext Empty
  | .basic ctx => .basic (networkBasic ctx)
  | .securedDeserialize ctx packet => .securedDeserialize ctx packet
  | .securedCast _ chunk => chunk.elim

def etherWire : Vanetza Empty Empty WireArea where
  decodeEthernetHeader := wire.decodeEthernetHeader
  parseBasic ctx := wire.parseBasic (networkBasic ctx)
  parseSecured ctx := wire.parseSecured (networkBasic ctx)
  parseCommon ctx := wire.parseCommon (networkContext ctx)
  parseExtended ctx := wire.parseExtended (networkContext ctx)
  finish ctx := wire.finish (networkContext ctx)
  destination := wire.destination
  calculateHash := wire.calculateHash
  parseBtpA := wire.parseBtpA
  parseBtpB := wire.parseBtpB

def flatFix : IsWithin (PositionFix Int) := fun lat lon fix radius =>
  flatWithin lat lon (fix.latitude,fix.longitude) radius

def intReals : GpsReals Int where
  isnan _ := false
  greater a b := b < a
  plus a b := a+b
  north := 0
  ninety := 90
  defaultConfidence := ⟨0,0,0⟩

def originFix : PositionFix Int := ⟨0,0,0,⟨0,0,0⟩,⟨0,0⟩,⟨0,0⟩,none⟩

def plainEnvironment : Environment Empty Int where
  withGpsd := true
  gpsOpens := true
  now := 0
  newFix := originFix
  localMid := 0
  parse _ _ _ := true

def gatewayOptions (positioning : String) (appParsers : List String) : Options Int where
  linkLayer := "ethernet"
  gnVersion := 1
  ruleset := ruleDocument [largeHopLimitRule]
  positioning := positioning
  latitude := 0
  longitude := 0
  posConfidence := 5
  printRxAll := false
  printRxCam := false
  printRxDenm := false
  printRxSpat := false
  printRxMap := false
  appParsers := appParsers

def startedGateway (positioning : Positioning Int) (appParsers : List String) :
    Gateway Empty Int :=
  ⟨RawSocketLink.create.indicate,.create,
    enableAll (.initial 0 (appendSignature ∅ .geoNetworking largeHopLimitSignature))
      (collectParsers plainEnvironment (gatewayOptions "static" appParsers) appParsers []),
    positioning,1,false⟩

def staticFix : PositionFix Int := { originFix with confidence := ⟨5,5,0⟩ }

theorem start_static (appParsers : List String) :
    start decimalConversions plainEnvironment (gatewayOptions "static" appParsers) =
      .ok (startedGateway (.stored staticFix) appParsers) := rfl

def datagramOf (bytes : ByteBuffer) : ByteBuffer :=
  [0xff,0xff,0xff,0xff,0xff,0xff,2,0,0,0,0,1,0x89,0x47] ++ bytes

def camDatagram : ByteBuffer := datagramOf (plainBytes 1 (shbInner 2001))

def sourceDatagram (datagram : ByteBuffer) : Event WireArea Int :=
  .sourceRead (some datagram) zeroStorage true

/-- In every state that the event loop reaches, the ports served are those of the
applications that were asked for, in whatever order and however often. -/
theorem served_ports_requested (y : Conversions) (env : Environment Chunk Real)
    (o : Options Real) (g t : Gateway Chunk Real) (v : Vanetza Chunk Certificate Area)
    (isWithin : IsWithin (PositionFix Real)) (r : GpsReals Real)
    (events : List (Event Area Real)) (hstart : start y env o = .ok g)
    (h : Reaches (Gateway.step v isWithin r) g events t) (port : PortType)
    (app : ApplicationLayerParser Chunk) :
    parserAt t.context.appLayerParsers port = some app ↔
      ∃ a : Application, a.name ∈ o.appParsers ∧ a.port = port ∧ a.parser env o = app := by
  obtain ⟨code,signatures,_,hctx⟩ := (start_ok hstart).context
  rw [Gateway.reaches_parserAt h,hctx]
  exact parserAt_enabled env.localMid signatures port app

theorem served_ports_requested_cam :
    ∃ t, Reaches (Gateway.step etherWire flatFix intReals)
        (startedGateway (.stored staticFix) ["den","ca","weather","ca"])
        [sourceDatagram camDatagram] t ∧
      (∃ app, parserAt t.context.appLayerParsers 2001 = some app) ∧
      ∀ app, parserAt t.context.appLayerParsers 2004 ≠ some app := by
  have hreach : Reaches (Gateway.step etherWire flatFix intReals)
      (startedGateway (.stored staticFix) ["den","ca","weather","ca"])
      ([] ++ [sourceDatagram camDatagram]) _ := .snoc .nil rfl
  have hserved := fun port app => served_ports_requested decimalConversions plainEnvironment
    (gatewayOptions "static" ["den","ca","weather","ca"]) _ _ etherWire flatFix intReals _
    (start_static ["den","ca","weather","ca"]) hreach port app
  refine ⟨_,hreach,⟨_,(hserved 2001 _).mpr ⟨.ca,by decide,rfl,rfl⟩⟩,?_⟩
  intro app happ
  obtain ⟨a,hname,hport,_⟩ := (hserved 2004 app).mp happ
  cases a with
  | spat => exact absurd hname (by decide)
  | _ => cases hport

/-- Each link has one receive in flight until a receive on it fails, and none from then on;
the timer of gpsd goes on until it is aborted, and the loop until a signal arrives. -/
theorem started_gateway_listens (y : Conversions) (env : Environment Chunk Real)
    (o : Options Real) (g t : Gateway Chunk Real) (v : Vanetza Chunk Certificate Area)
    (isWithin : IsWithin (PositionFix Real)) (r : GpsReals Real)
    (events : List (Event Area Real)) (hstart : start y env o = .ok g)
    (h : Reaches (Gateway.step v isWithin r) g events t) :
    Listening (if o.positioning = "gpsd" then 1 else 0) t events :=
  Gateway.reaches_listening h (start_ok hstart).listening o.timers_le

def sourceError : Event WireArea Int := .sourceRead none zeroStorage true

theorem start_gpsd : start decimalConversions plainEnvironment (gatewayOptions "gpsd" ["ca"]) =
    .ok (startedGateway (.gpsd ⟨originFix,1⟩) ["ca"]) := rfl

def goodRead : GpsRead Int :=
  ⟨0,1,1,⟨⟨0,0⟩,2,10000000,10000000,0,3,0,0,0,7,4,0⟩⟩

theorem started_gateway_listens_sourceError :
    ∃ t, Reaches (Gateway.step etherWire flatFix intReals)
        (startedGateway (.gpsd ⟨originFix,1⟩) ["ca"])
        [sourceDatagram camDatagram,sourceError,.timer false [goodRead]] t ∧
      t.source.receives = 0 ∧ t.destination.receives = 1 ∧ t.positioning.waits = 1 ∧
      t.stopped = false := by
  have hreach : Reaches (Gateway.step etherWire flatFix intReals)
      (startedGateway (.gpsd ⟨originFix,1⟩) ["ca"])
      ([] ++ [sourceDatagram camDatagram] ++ [sourceError] ++ [.timer false [goodRead]]) _ :=
    .snoc (.snoc (.snoc .nil rfl) rfl) rfl
  have hlisten := started_gateway_listens decimalConversions plainEnvironment
    (gatewayOptions "gpsd" ["ca"]) _ _ etherWire flatFix intReals _ start_gpsd hreach
  exact ⟨_,hreach,hlisten.source,hlisten.destination,hlisten.timer,hlisten.stopped⟩

/-- One failed receive on the source link and the gateway is deaf: the loop goes on, and all
that was in flight but the receive still is, but nothing is decoded, logged or forwarded any
more. -/
theorem deaf_after_source_error (y : Conversions) (env : Environment Chunk Real)
    (o : Options Real) (g t : Gateway Chunk Real) (v : Vanetza Chunk Certificate Area)
    (isWithin : IsWithin (PositionFix Real)) (r : GpsReals Real)
    (before after : List (Event Area Real)) (storage : Storage Area) (socketOk : Bool)
    (hstart : start y env o = .ok g) (h : Reaches (Gateway.step v isWithin r) g
      (before ++ .sourceRead none storage socketOk :: after) t) :
    ∃ m m', Reaches (Gateway.step v isWithin r) g before m ∧
      Gateway.step v isWithin r m (.sourceRead none storage socketOk) = .ok m' ∧
      Reaches (Gateway.step v isWithin r) m' after t ∧
      m'.stopped = false ∧
      (∀ e : Event Area Real, m'.enabled e = (!e.onSource && m.enabled e)) ∧
      t.stopped = after.any Event.stops ∧ t.source.receives = 0 ∧ t.context = m.context := by
  have hs := start_ok hstart
  rw [List.append_cons] at h
  obtain ⟨m',hm',hafter⟩ := h.split
  obtain ⟨m,hm,hone⟩ := hm'.split
  have hstep := hone.of_singleton
  obtain ⟨hrunning,hround⟩ := Gateway.step_round hstep
  have hbegin : Listening o.timers g ([] : List (Event Area Real)) := hs.listening
  have hlisten := Gateway.reaches_listening hm' hbegin o.timers_le
  have hzero : m'.source.receives = 0 := by
    simpa [Event.sourceFails] using hlisten.source
  have hlinks := Gateway.reaches_callback hm'
  obtain ⟨hstill,hctx⟩ :=
    Gateway.reaches_deaf hafter hzero (hlinks.2.trans hs.destination.1)
  have hstopped : m'.stopped = false := hround.stopped hrunning
  refine ⟨m,m',hm,hstep,hafter,hstopped,?_,Gateway.reaches_stopped hafter hstopped,hstill,
    hctx.trans hround.context_of_failed⟩
  intro e
  cases hround with
  | source _ _ _ _ =>
    cases e with
    | sourceRead input storage socketOk =>
      simpa [Gateway.enabled,Event.onSource] using fun _ => hzero
    | _ => rfl

theorem deaf_after_source_error_goodRead :
    ∃ t, Reaches (Gateway.step etherWire flatFix intReals)
        (startedGateway (.gpsd ⟨originFix,1⟩) ["ca"])
        ([sourceDatagram camDatagram] ++ sourceError ::
          [.timer false [goodRead],.destinationRead (some camDatagram) zeroStorage true]) t ∧
      t.positioning.positionFix = positionFixOf intReals goodRead.data.fix ∧
      ∃ m m', Reaches (Gateway.step etherWire flatFix intReals)
        (startedGateway (.gpsd ⟨originFix,1⟩) ["ca"]) [sourceDatagram camDatagram] m ∧
      Gateway.step etherWire flatFix intReals m sourceError = .ok m' ∧
      Reaches (Gateway.step etherWire flatFix intReals) m'
        [.timer false [goodRead],.destinationRead (some camDatagram) zeroStorage true] t ∧
      m'.stopped = false ∧ (∀ e : Event WireArea Int, m'.enabled e = (!e.onSource && m.enabled e)) ∧
      t.stopped = false ∧ t.source.receives = 0 ∧ t.context = m.context := by
  have hreach : Reaches (Gateway.step etherWire flatFix intReals)
      (startedGateway (.gpsd ⟨originFix,1⟩) ["ca"])
      ([] ++ [sourceDatagram camDatagram] ++ [sourceError] ++ [.timer false [goodRead]] ++
        [.destinationRead (some camDatagram) zeroStorage true]) _ :=
    .snoc (.snoc (.snoc (.snoc .nil rfl) rfl) rfl) rfl
  exact ⟨_,hreach,rfl,deaf_after_source_error decimalConversions plainEnvironment
    (gatewayOptions "gpsd" ["ca"]) _ _ etherWire flatFix intReals
    [sourceDatagram camDatagram] _ zeroStorage true start_gpsd hreach⟩

/-- What arrives on the destination link of a started gateway changes nothing but that link:
without these events the run ends in the same state. -/
theorem destination_traffic_irrelevant (y : Conversions) (env : Environment Chunk Real)
    (o : Options Real) (g t : Gateway Chunk Real) (v : Vanetza Chunk Certificate Area)
    (isWithin : IsWithin (PositionFix Real)) (r : GpsReals Real)
    (events : List (Event Area Real)) (hstart : start y env o = .ok g)
    (h : Reaches (Gateway.step v isWithin r) g events t) :
    ∃ t', Reaches (Gateway.step v isWithin r) g (events.filter (fun e => !e.onDestination)) t' ∧
      t = { t' with destination := t.destination } := by
  have hcb := (start_ok hstart).destination.1
  induction h with
  | nil => exact ⟨g,.nil,rfl⟩
  | @snoc events t t₁ e hreach hs ih =>
    obtain ⟨t',hr,hsame⟩ := ih
    rw [List.filter_append]
    cases e with
    | destinationRead input storage socketOk =>
      refine ⟨t',by simpa [Event.onDestination] using hr,?_⟩
      have hdeaf := (Gateway.reaches_callback hreach).2.trans hcb
      rw [(Gateway.step_round hs).2.context_of_destination hdeaf,hsame]
    | _ =>
      rw [hsame,Gateway.step_withDestination (by simp)] at hs
      simp only [map_eq_ok] at hs
      obtain ⟨t₁',hs',rfl⟩ := hs
      exact ⟨t₁',hr.snoc hs',rfl⟩

theorem destination_traffic_irrelevant_cam :
    ∃ t, Reaches (Gateway.step etherWire flatFix intReals)
        (startedGateway (.stored staticFix) ["ca"])
        [.destinationRead (some camDatagram) zeroStorage true,sourceDatagram camDatagram] t ∧
      ∃ t', Reaches (Gateway.step etherWire flatFix intReals)
        (startedGateway (.stored staticFix) ["ca"]) [sourceDatagram camDatagram] t' ∧
      t = { t' with destination := t.destination } := by
  have hreach : Reaches (Gateway.step etherWire flatFix intReals)
      (startedGateway (.stored staticFix) ["ca"])
      ([] ++ [.destinationRead (some camDatagram) zeroStorage true] ++
        [sourceDatagram camDatagram]) _ :=
    .snoc (.snoc .nil rfl) rfl
  exact ⟨_,hreach,destination_traffic_irrelevant decimalConversions plainEnvironment
    (gatewayOptions "static" ["ca"]) _ _ etherWire flatFix intReals _ (start_static ["ca"]) hreach⟩

def Event.fetches (r : GpsReals Real) : Event Area Real → Option (PositionFix Real)
  | .timer false reads => fetched r reads
  | _ => none

theorem fixAfter_eq (r : GpsReals Real) (fix : PositionFix Real) (e : Event Area Real) :
    fixAfter r fix e = (e.fetches r).getD fix := by
  cases e with
  | timer aborted reads => cases aborted <;> rfl
  | _ => rfl

theorem foldl_fixAfter (r : GpsReals Real) (fix : PositionFix Real)
    (events : List (Event Area Real)) : events.foldl (fixAfter r) fix =
      (events.filterMap (Event.fetches r)).getLast?.getD fix := by
  induction events generalizing fix with
  | nil => rfl
  | cons e events ih =>
    rw [List.foldl_cons,ih,fixAfter_eq,List.filterMap_cons]
    cases e.fetches r with
    | none => rfl
    | some new => simp [List.getLast?_cons]

theorem fetched_axes {r : GpsReals Real}
    (hasym : ∀ a b, r.greater a b = true → r.greater b a = false) {e : Event Area Real}
    {fix : PositionFix Real} (h : e.fetches r = some fix) : AxesInOrder r fix.confidence := by
  unfold Event.fetches at h
  split at h
  · unfold fetched at h
    split at h
    · cases h
    · split at h
      · cases h
        exact confidenceOf_axes hasym _
      · cases h
  · cases h

/-- The position that frames are judged by is the last good fix fetched before them; one
from gpsd has the axes of its confidence in order. -/
theorem position_is_last_good_fix (v : Vanetza Chunk Certificate Area)
    (isWithin : IsWithin (PositionFix Real)) (r : GpsReals Real) (g t : Gateway Chunk Real)
    (events : List (Event Area Real))
    (hasym : ∀ a b, r.greater a b = true → r.greater b a = false)
    (h : Reaches (Gateway.step v isWithin r) g events t) :
    t.positioning.positionFix =
      (events.filterMap (Event.fetches r)).getLast?.getD g.positioning.positionFix ∧
    ∀ fix ∈ events.filterMap (Event.fetches r), AxesInOrder r fix.confidence := by
  refine ⟨?_,?_⟩
  · rw [Gateway.reaches_positionFix h,foldl_fixAfter]
  · intro fix hfix
    obtain ⟨e,_,he⟩ := List.mem_filterMap.mp hfix
    exact fetched_axes hasym he

theorem position_is_last_good_fix_goodRead :
    ∃ t, Reaches (Gateway.step etherWire flatFix intReals)
        (startedGateway (.gpsd ⟨originFix,1⟩) ["ca"])
        [.timer false [goodRead],sourceDatagram camDatagram] t ∧
      t.positioning.positionFix = positionFixOf intReals goodRead.data.fix ∧
      AxesInOrder intReals (confidenceOf intReals goodRead.data.fix) := by
  have hasym : ∀ a b, intReals.greater a b = true → intReals.greater b a = false := by
    intro a b h
    simp only [intReals,decide_eq_true_eq] at h
    simp only [intReals,decide_eq_false_iff_not]
    omega
  have hreach : Reaches (Gateway.step etherWire flatFix intReals)
      (startedGateway (.gpsd ⟨originFix,1⟩) ["ca"])
      ([] ++ [.timer false [goodRead]] ++ [sourceDatagram camDatagram]) _ :=
    .snoc (.snoc .nil rfl) rfl
  have hfix := position_is_last_good_fix etherWire flatFix intReals _ _ _ hasym hreach
  exact ⟨_,hreach,hfix.1,hfix.2 (positionFixOf intReals goodRead.data.fix) List.mem_cons_self⟩

end Mitvane
