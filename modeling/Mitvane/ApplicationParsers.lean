import Mitvane.MessagePrinting
import Mitvane.Startup

set_option autoImplicit false

namespace Mitvane.Its
open PartialRun Per
variable {Chunk Certificate Area Real : Type}

/-- What vanetza makes of a packet: its bytes from the session to the application layer, and
the wrapper that the application layer of a chunk packet holds, if it holds one. A wrapper's
message may be missing. -/
structure PacketAccess (Chunk : Type) where
  byteView : PacketVariant Chunk → ByteBuffer
  wrapper : Chunk → Option (Option Value)

def PacketAccess.Received (access : PacketAccess Chunk) (packet : PacketVariant Chunk) : Prop :=
  ∀ c, packet = .chunk c → access.wrapper c = none

/-- What the variables of a print function hold before they are set. -/
structure Unset where
  detectionTime : Int
  referenceTime : Int

/-- What the parsers of two applications differ in. What is printed are the rows of the
message; it does not depend on variables that are not set, and it is the same for a message
before and after its way. -/
structure Parser where
  title : String
  schema : Schema
  printIndented : Unset → String → Nat → Value → Except Per.Fault (List String)
  rows : Value → List Row
  sound : schema.sound none = true
  nothing : ∀ stack, uperDecode ((schema.descriptor stack).uperDecoder none) [] 0 0 = .ok none
  prints : ∀ v, schema.WellFormed none v → ∀ indent level,
    ∃ lines, List.Forall₂ (Row.Shows indent level v) (rows v) lines ∧
      ∀ unset, printIndented unset indent level v = .ok lines
  preserves : ∀ v, schema.inRange none v = true → ∀ indent level lines,
    List.Forall₂ (Row.Shows indent level (schema.arrives none v)) (rows (schema.arrives none v))
      lines → List.Forall₂ (Row.Shows indent level v) (rows v) lines

def bufferAccess : PacketAccess Empty where
  byteView := transportBytes
  wrapper c := c.elim

def camApplicationParser : Parser where
  title := "CAM"
  schema := cam
  printIndented _ := camPrintIndented
  rows := camShown
  sound := cam_sound
  nothing := cam_of_nothing
  prints v h indent level := by
    obtain ⟨lines,hshows,hlines⟩ := camPrintIndented_ok h indent level
    exact ⟨lines,hshows,fun _ => hlines⟩
  preserves _ hv _ _ _ := cam_shows_arrives hv

def denmApplicationParser : Parser where
  title := "DENM"
  schema := denm
  printIndented unset := denmPrintIndented unset.detectionTime unset.referenceTime
  rows _ := denmRows 0 0
  sound := denm_sound
  nothing := denm_of_nothing
  prints v h indent level := by
    obtain ⟨lines,hshows,hlines⟩ := denmPrintIndented_ok h indent level
    exact ⟨lines,hshows,fun unset => hlines unset.detectionTime unset.referenceTime⟩
  preserves _ hv _ _ _ := denm_shows_arrives hv

namespace Parser
variable (p : Parser) (access : PacketAccess Chunk) (stack : Tmpspace)

def deserialize (range : ByteBuffer) : Except Per.Fault (Option Value) := do
  let decoded ← decodePer ((p.schema.descriptor stack).uperDecoder none) range
  pure (decoded.map Prod.fst)

/-- `PacketVisitor`, which may leave chunks alone that it cannot cast. -/
def visit (deserializeChunk : Bool) : PacketVariant Chunk → Except Per.Fault (Option Value)
  | .chunk packet =>
    match access.wrapper packet with
    | some message => .ok message
    | none => if deserializeChunk then p.deserialize stack (access.byteView (.chunk packet))
      else .ok none
  | .cohesive packet => p.deserialize stack (access.byteView (.cohesive packet))

def announcement (decodable : Bool) : String :=
  p.title ++ " application received a packet with " ++
    (if decodable then "decodable" else "broken") ++ " content"

def heading : String := "Received " ++ p.title ++ " contains"

def parse (unset : Unset) (printRxMsg : Bool) (packet : PacketVariant Chunk) :
    Except Per.Fault (List String) := do
  let message ← p.visit access stack true packet
  match message with
  | none => pure [p.announcement false]
  | some v =>
    if printRxMsg then do
      let lines ← p.printIndented unset "  " 1 v
      pure (p.announcement true :: p.heading :: lines)
    else pure [p.announcement true]

variable {p access} {packet : PacketVariant Chunk}

theorem visit_received (h : access.Received packet) :
    p.visit access stack true packet = p.deserialize stack (access.byteView packet) := by
  cases packet with
  | cohesive packet => rfl
  | chunk packet =>
    rw [visit,h packet rfl]
    rfl

theorem parse_broken (h : access.Received packet) (hdecoded : decodePer
      ((p.schema.descriptor stack).uperDecoder none) (access.byteView packet) = .ok none)
    (unset : Unset) (printRxMsg : Bool) :
    p.parse access stack unset printRxMsg packet = .ok [p.announcement false] := by
  unfold parse
  rw [visit_received stack h,deserialize,hdecoded]
  rfl

theorem parse_decodable (h : access.Received packet) {v : Value} {consumed : Nat}
    (hdecoded : decodePer ((p.schema.descriptor stack).uperDecoder none)
      (access.byteView packet) = .ok (some (v,consumed))) {lines : List String} {unset : Unset}
    (hlines : p.printIndented unset "  " 1 v = .ok lines) (printRxMsg : Bool) :
    p.parse access stack unset printRxMsg packet = .ok (p.announcement true ::
      if printRxMsg then p.heading :: lines else []) := by
  unfold parse
  rw [visit_received stack h,deserialize,hdecoded]
  cases printRxMsg with
  | false => rfl
  | true =>
    simp only [ok_bind,pure,Except.pure,Option.map_some,if_pos,hlines]

theorem printed {range : ByteBuffer} {v : Value} {consumed : Nat} (hdecoded : decodePer
      ((p.schema.descriptor stack).uperDecoder none) range = .ok (some (v,consumed))) :
    ∃ lines, List.Forall₂ (Row.Shows "  " 1 v) (p.rows v) lines ∧
      ∀ unset, p.printIndented unset "  " 1 v = .ok lines := by
  obtain ⟨rval,hrun,hall⟩ := decodePer_ensures (p.schema.yields stack none p.sound) range
  rw [hdecoded] at hrun
  cases hrun
  exact p.prints v (hall (v,consumed) rfl) "  " 1

/-- Whatever bytes a packet brings, parsing it ends. It is announced as decodable or broken as
the decoder takes it or not, and what is printed of a message are its rows, each with what the
message has there. -/
theorem parse_ends (p : Parser) (access : PacketAccess Chunk) (stack : Tmpspace)
    (packet : PacketVariant Chunk) (h : access.Received packet) (printRxMsg : Bool) :
    ∃ decoded, decodePer ((p.schema.descriptor stack).uperDecoder none) (access.byteView packet) =
        .ok decoded ∧
      (decoded = none → ∀ unset,
        p.parse access stack unset printRxMsg packet = .ok [p.announcement false]) ∧
      ∀ v consumed, decoded = some (v,consumed) →
        ∃ lines, List.Forall₂ (Row.Shows "  " 1 v) (p.rows v) lines ∧
          ∀ unset, p.printIndented unset "  " 1 v = .ok lines ∧
            p.parse access stack unset printRxMsg packet = .ok (p.announcement true ::
              if printRxMsg then p.heading :: lines else []) := by
  obtain ⟨decoded,hrun,_⟩ :=
    decodePer_ensures (p.schema.yields stack none p.sound) (access.byteView packet)
  refine ⟨decoded,hrun,?_,?_⟩
  · rintro rfl unset
    exact parse_broken stack h hrun unset printRxMsg
  · rintro v consumed rfl
    obtain ⟨lines,hshows,hlines⟩ := printed stack hrun
    exact ⟨lines,hshows,fun unset =>
      ⟨hlines unset,parse_decodable stack h hrun (hlines unset) printRxMsg⟩⟩

theorem parse_ends_roadWorks :
    ∃ v consumed lines, decodePer ((cam.descriptor zeroStack).uperDecoder none) sampleCamBytes =
        .ok (some (v,consumed)) ∧
      List.Forall₂ (Row.Shows "  " 1 v) (camShown v) lines ∧
      ∀ unset, camApplicationParser.parse bufferAccess zeroStack unset true
          (.cohesive ⟨sampleCamBytes,[0]⟩) =
        .ok (camApplicationParser.announcement true :: camApplicationParser.heading :: lines) := by
  obtain ⟨v,consumed,hdecoded⟩ := sampleCamBytes_accepted
  obtain ⟨decoded,hrun,_,hprinted⟩ := parse_ends camApplicationParser bufferAccess zeroStack
    (.cohesive ⟨sampleCamBytes,[0]⟩) (fun c => c.elim) true
  cases hrun.symm.trans hdecoded
  obtain ⟨lines,hshows,hlines⟩ := hprinted v consumed rfl
  exact ⟨v,consumed,lines,hdecoded,hshows,fun unset => (hlines unset).2⟩

/-- A message whose values keep to their ranges is sent, and the application that receives it
announces it and prints the rows of the message that was sent, whatever follows it in the
packet. -/
theorem sent_message_printed (p : Parser) (access : PacketAccess Chunk) (stack : Tmpspace)
    (v : Value) (hv : p.schema.inRange none v = true) :
    ∃ bytes lines, encodePer stack ((p.schema.descriptor stack).uperEncoder none v) =
        .ok (some bytes) ∧
      List.Forall₂ (Row.Shows "  " 1 v) (p.rows v) lines ∧
      ∀ unset packet more, access.Received packet → access.byteView packet = bytes ++ more →
        p.parse access stack unset true packet = .ok (p.announcement true :: p.heading :: lines) := by
  obtain ⟨bytes,consumed,hbytes,hdecoded⟩ :=
    Schema.message_roundTrips stack p.sound (p.nothing stack) hv
  obtain ⟨lines,hshows,hlines⟩ := printed stack (hdecoded [])
  refine ⟨bytes,lines,hbytes,p.preserves v hv _ _ _ hshows,fun unset packet more h hview => ?_⟩
  have hpacket := hdecoded more
  rw [← hview] at hpacket
  exact parse_decodable stack h hpacket (hlines unset) true

/-- A warning of a broken down car, valid for the ten minutes that are the default. -/
def sampleDenm : Value :=
  record [record [.native 2,.native 1,.native 4711],
    .struct [some (.struct [some (record [.native 4711,.native 7]),
        some (.integer (asnImax2INTEGER 500000000000)),
        some (.integer (asnImax2INTEGER 500000000300)),none,
        some (record [.native 488800000,.native 112200000,
          record [.native 100,.native 100,.native 900],record [.native 30000,.native 3]]),
        none,none,some (.native 600),none,some (.native 5)]),none,none,none]]

theorem sent_message_printed_denm :
    ∃ bytes lines, encodePer zeroStack ((denm.descriptor zeroStack).uperEncoder none sampleDenm) =
        .ok (some bytes) ∧
      List.Forall₂ (Row.Shows "  " 1 sampleDenm) (denmRows 0 0) lines ∧
      ∀ unset packet more, bufferAccess.Received packet →
        bufferAccess.byteView packet = bytes ++ more →
        denmApplicationParser.parse bufferAccess zeroStack unset true packet =
          .ok (denmApplicationParser.announcement true :: denmApplicationParser.heading ::
            lines) :=
  sent_message_printed denmApplicationParser bufferAccess zeroStack sampleDenm
    (by decide +kernel)

end Parser

def parserOf : Application → Option Parser
  | .ca => some camApplicationParser
  | .den => some denmApplicationParser
  | .spat => none
  | .map => none

def parseReturns (env : Environment Chunk Real) (access : Application → PacketAccess Chunk)
    (stack : Tmpspace) (unset : Unset) (a : Application) (printRxMsg : Bool)
    (packet : PacketVariant Chunk) : Bool :=
  match parserOf a with
  | some p => (p.parse (access a) stack unset printRxMsg packet).isOk
  | none => env.parse a printRxMsg packet

def withParsers (env : Environment Chunk Real) (access : Application → PacketAccess Chunk)
    (stack : Tmpspace) (unset : Unset) : Environment Chunk Real :=
  { env with parse := parseReturns env access stack unset }

theorem parseReturns_received (env : Environment Chunk Real)
    (access : Application → PacketAccess Chunk) (stack : Tmpspace) (unset : Unset)
    {a : Application} {p : Parser} (ha : parserOf a = some p)
    {packet : PacketVariant Chunk} (h : (access a).Received packet) (printRxMsg : Bool) :
    parseReturns env access stack unset a printRxMsg packet = true := by
  obtain ⟨decoded,hrun,_⟩ := decodePer_ensures (p.schema.yields stack none p.sound)
    ((access a).byteView packet)
  simp only [parseReturns,ha]
  cases decoded with
  | none => rw [Parser.parse_broken stack h hrun]; rfl
  | some r =>
    obtain ⟨lines,_,hlines⟩ := Parser.printed stack hrun
    rw [Parser.parse_decodable stack h hrun (hlines unset)]
    rfl

theorem applicationStep_exception {s : IdpsState Chunk} {decoded : Decoded Chunk Area}
    (h : applicationStep s decoded = .error .exception) :
    ∃ (btp : BtpData) (app : ApplicationLayerParser Chunk) (ptr : UpPacketPtr Chunk),
      parserAt s.appLayerParsers btp.destinationPort = some app ∧
      decoded.fate = .released ptr ∧ app.parse ptr.packet = false := by
  unfold applicationStep at h
  cases hbtp : decoded.context.btpData with
  | none =>
    rw [hbtp] at h
    cases h
  | some btp =>
    rw [hbtp] at h
    simp only at h
    cases happ : (classify s.appLayerParsers btp).1 with
    | none =>
      rw [happ] at h
      cases h
    | some app =>
      rw [happ] at h
      rw [classify_fst] at happ
      cases hfate : decoded.fate with
      | disposed token =>
        rw [hfate] at h
        cases h
      | released ptr =>
        rw [hfate] at h
        refine ⟨btp,app,ptr,happ,rfl,?_⟩
        by_contra hparse
        rw [Bool.not_eq_false] at hparse
        simp only [handOver,if_pos hparse] at h
        split at h <;> cases h

/-- Whatever a frame carries for the applications, handing it to one of these two does not
throw: in no state that a gateway with only them gets to, and whatever it got before. -/
theorem application_bytes_harmless (y : Conversions) (env : Environment Chunk Real)
    (o : Options Real) (access : Application → PacketAccess Chunk) (stack : Tmpspace)
    (unset : Unset) (g t : Gateway Chunk Real) (v : Vanetza Chunk Certificate Area)
    (isWithin : IsWithin (PositionFix Real)) (r : GpsReals Real)
    (events : List (Event Area Real))
    (hstart : start y (withParsers env access stack unset) o = .ok g)
    (h : Reaches (Gateway.step v isWithin r) g events t)
    (honly : "spat" ∉ o.appParsers ∧ "map" ∉ o.appParsers) (decoded : Decoded Chunk Area)
    (hreceived : ∀ ptr, decoded.fate = .released ptr → ∀ a, (access a).Received ptr.packet) :
    applicationStep t.context decoded ≠ .error .exception := by
  intro hthrown
  obtain ⟨btp,app,ptr,happ,hfate,hparse⟩ := applicationStep_exception hthrown
  obtain ⟨code,signatures,_,hctx⟩ := (start_ok hstart).context
  rw [Gateway.reaches_parserAt h,hctx] at happ
  obtain ⟨a,hname,_,rfl⟩ := (parserAt_enabled _ signatures _ app).mp happ
  have hmodelled : ∃ p, parserOf a = some p := by
    cases a with
    | ca => exact ⟨_,rfl⟩
    | den => exact ⟨_,rfl⟩
    | spat => exact absurd hname honly.1
    | map => exact absurd hname honly.2
  obtain ⟨p,hp⟩ := hmodelled
  have hreturns :=
    parseReturns_received env access stack unset hp (hreceived ptr hfate a) (o.prints a)
  exact absurd (hreturns.symm.trans hparse) (by decide)

def brokenCam : Decoded Empty WireArea :=
  ⟨{ zeroStorage.context with btpData := some (.ofB ⟨2001,0⟩) },
    .released ⟨0,.cohesive ⟨[0x02,0x02],[0]⟩⟩⟩

def roadWorksEvents : List (Event WireArea Int) :=
  [sourceDatagram (camDatagram ++ sampleCamBytes),.timer false [goodRead],sourceDatagram camDatagram]

theorem application_bytes_harmless_brokenCam :
    ∃ g t, start decimalConversions (withParsers plainEnvironment (fun _ => bufferAccess) zeroStack
        ⟨0,0⟩) (gatewayOptions "gpsd" ["ca","den"]) = .ok g ∧
      Reaches (Gateway.step etherWire flatFix intReals) g roadWorksEvents t ∧
      applicationStep t.context brokenCam ≠ .error .exception := by
  have hreturns : ((start decimalConversions (withParsers plainEnvironment (fun _ => bufferAccess)
      zeroStack ⟨0,0⟩) (gatewayOptions "gpsd" ["ca","den"])).toOption.bind fun g =>
      (roadWorksEvents.foldlM (Gateway.step etherWire flatFix intReals) g).toOption).isSome = true :=
    by decide +kernel
  obtain ⟨t,ht⟩ := Option.isSome_iff_exists.mp hreturns
  obtain ⟨g,hg,hsteps⟩ := Option.bind_eq_some_iff.mp ht
  have hstart := toOption_eq_some.mp hg
  have hrun := Reaches.nil.foldlM (toOption_eq_some.mp hsteps)
  exact ⟨g,t,hstart,hrun,application_bytes_harmless decimalConversions plainEnvironment
    (gatewayOptions "gpsd" ["ca","den"]) (fun _ => bufferAccess) zeroStack ⟨0,0⟩ _ _ etherWire
    flatFix intReals _ hstart hrun (by decide) brokenCam (fun _ _ _ c => c.elim)⟩

end Mitvane.Its
