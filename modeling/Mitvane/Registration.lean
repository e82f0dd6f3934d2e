import Mitvane.Pipeline
import Mitvane.Wire

set_option autoImplicit false

namespace Mitvane
open PartialRun
variable {Chunk Certificate Area Fix : Type}

/-- One call's effect on the parser of a port. Port 0 is never served. -/
def register (port : PortType) (current : Option (ApplicationLayerParser Chunk)) :
    Call Chunk Area Fix → Option (ApplicationLayerParser Chunk)
  | .enable app => if app.port ≠ 0 ∧ app.port = port then some app else current
  | .disable app => if app.port ≠ 0 ∧ app.port = port then none else current
  | .run _ => current

/-- The last call for the port decides. -/
def registered (port : PortType) (calls : List (Call Chunk Area Fix)) :
    Option (ApplicationLayerParser Chunk) :=
  calls.foldl (register port) none

def parserAt (parsers : PortMap Chunk) (port : PortType) :
    Option (ApplicationLayerParser Chunk) :=
  (parsers.lookup port).join

def servedPorts (parsers : PortMap Chunk) : Set PortType :=
  { port | (parserAt parsers port).isSome }

theorem classify_fst (parsers : PortMap Chunk) (btp : BtpData) :
    (classify parsers btp).1 = parserAt parsers btp.destinationPort := by
  unfold classify parserAt
  rw [StdMap.subscript_fst]
  cases parsers.lookup btp.destinationPort <;> rfl

theorem parserAt_classify (parsers : PortMap Chunk) (btp : BtpData) (port : PortType) :
    parserAt (classify parsers btp).2 port = parserAt parsers port := by
  unfold classify parserAt
  rw [StdMap.lookup_subscript]
  by_cases h : port = btp.destinationPort
  · subst h
    cases parsers.lookup btp.destinationPort <;> simp
  · simp [h]

theorem servedPorts_classify (parsers : PortMap Chunk) (btp : BtpData) :
    servedPorts (classify parsers btp).2 = servedPorts parsers := by
  ext port
  simp [servedPorts,parserAt_classify]

theorem parserAt_insert (parsers : PortMap Chunk) (p port : PortType)
    (handler : Option (ApplicationLayerParser Chunk)) :
    parserAt (parsers.insert p handler) port =
      if p = port then handler else parserAt parsers port := by
  unfold parserAt
  rw [StdMap.lookup_insert_eq]
  by_cases h : port = p
  · subst h; simp
  · simp [h,Ne.symm h]

section
variable {v : Vanetza Chunk Certificate Area} {isWithin : IsWithin Fix}

theorem run_parserAt {s s' : IdpsState Chunk} {a : Arrival Area Fix}
    (h : run v isWithin s a = .ok s') (port : PortType) :
    parserAt s'.appLayerParsers port = parserAt s.appLayerParsers port := by
  rcases run_cases h with ⟨_,rfl⟩ | ⟨_,d,report,hp⟩
  · rfl
  · rw [hp.parsers]
    cases d.context.btpData with
    | none => rfl
    | some btp => exact parserAt_classify s.appLayerParsers btp port

theorem step_parserAt {s s' : IdpsState Chunk} {c : Call Chunk Area Fix}
    (h : step v isWithin s c = .ok s') (port : PortType) :
    parserAt s'.appLayerParsers port = register port (parserAt s.appLayerParsers port) c := by
  cases c with
  | enable app =>
    cases h
    by_cases hp : app.port = 0
    · simp [enable,register,hp]
    · simp [enable,register,hp,setApplicationLayerParser,parserAt_insert]
  | disable app =>
    cases h
    by_cases hp : app.port = 0
    · simp [disable,register,hp]
    · simp [disable,register,hp,setApplicationLayerParser,parserAt_insert]
  | run a => exact run_parserAt h port

theorem drain_parserAt (v : Vanetza Chunk Certificate Area) (isWithin : IsWithin Fix)
    (s : IdpsState Chunk) (calls : List (Call Chunk Area Fix))
    (port : PortType) :
    parserAt (drain (step v isWithin) s calls).2.appLayerParsers port =
      (drain (step v isWithin) s calls).1.foldl (register port)
        (parserAt s.appLayerParsers port) :=
  drain_induction
    (R := fun s done t => parserAt t.appLayerParsers port =
      done.foldl (register port) (parserAt s.appLayerParsers port))
    (fun _ => rfl)
    (fun hs ht => by rw [ht,step_parserAt hs port]; rfl) s calls

end

/-- A packet for a port that has `parser`: it is called on the packet that decoding
released, and without one the pipeline goes on to detection at once. Either way no
port gets or loses its parser. -/
def ServesPort (v : Vanetza Chunk Certificate Area) (isWithin : IsWithin Fix)
    (s : IdpsState Chunk) (a : Arrival Area Fix) (d : Decoded Chunk Area) (btp : BtpData)
    (parser : Option (ApplicationLayerParser Chunk)) : Prop :=
  servedPorts (classify s.appLayerParsers btp).2 = servedPorts s.appLayerParsers ∧
  match parser with
  | some app => (classify s.appLayerParsers btp).1 = some app ∧
      ∃ packet parsers, d.fate = .released ⟨d.context.payload,packet⟩ ∧
        run v isWithin s a = if app.parse packet then
          detectAndForward isWithin { recordDecode s d.fate with
            appLayerParsers := parsers
            ledger := (recordDecode s d.fate).ledger ++ [.handedOver d.context.payload] }
            a d.context.geonetData
          else .error .exception
  | none => ∃ parsers, run v isWithin s a = detectAndForward isWithin
      { recordDecode s d.fate with appLayerParsers := parsers } a d.context.geonetData

section
variable {v : Vanetza Chunk Certificate Area} {isWithin : IsWithin Fix} {s : IdpsState Chunk}
  {a : Arrival Area Fix} {d : Decoded Chunk Area} {btp : BtpData}

theorem run_of_btpData (hacc : accepts s.localMid a.frame.header = true)
    (hd : decodeArrival v s.nextToken a = .ok d) (hb : d.context.btpData = some btp) :
    run v isWithin s a =
      match parserAt s.appLayerParsers btp.destinationPort with
      | none => .error .nullParser
      | some app => handOver { recordDecode s d.fate with
          appLayerParsers := (classify s.appLayerParsers btp).2 } app d.context.payload d.fate >>=
          fun s' => detectAndForward isWithin s' a d.context.geonetData := by
  simp only [run,hacc,if_true,hd,ok_bind,applicationStep,hb,← classify_fst,recordDecode]
  cases (classify s.appLayerParsers btp).1 <;> rfl

theorem run_calls_null (hacc : accepts s.localMid a.frame.header = true)
    (hd : decodeArrival v s.nextToken a = .ok d) (hb : d.context.btpData = some btp)
    (hnone : parserAt s.appLayerParsers btp.destinationPort = none) :
    ¬ ServesPort v isWithin s a d btp none := by
  intro h
  obtain ⟨parsers,hrun⟩ := h.2
  rw [run_of_btpData hacc hd hb,hnone] at hrun
  rcases detectAndForward_error hrun.symm with he | he <;> cases he

theorem run_calls_registered {app : ApplicationLayerParser Chunk}
    (hacc : accepts s.localMid a.frame.header = true)
    (hd : decodeArrival v s.nextToken a = .ok d) (hb : d.context.btpData = some btp)
    (hsome : parserAt s.appLayerParsers btp.destinationPort = some app) :
    ServesPort v isWithin s a d btp (some app) := by
  obtain ⟨packet,hfate⟩ := (decodeArrival_leaves hd).payload_of_btpData (by simp [hb])
  refine ⟨servedPorts_classify s.appLayerParsers btp,?_,packet,
    (classify s.appLayerParsers btp).2,hfate,?_⟩
  · rw [classify_fst,hsome]
  · rw [run_of_btpData hacc hd hb,hsome]
    simp only [handOver,hfate]
    cases app.parse packet <;> rfl

end

/-- After any calls, a packet with BTP data is served as its port is registered
exactly when some parser is registered there. -/
theorem servesPort_iff_registered (v : Vanetza Chunk Certificate Area)
    (isWithin : IsWithin Fix) (localMid : MacAddress) (signatures : SignaturesType)
    (calls : List (Call Chunk Area Fix)) (a : Arrival Area Fix) (d : Decoded Chunk Area)
    (btp : BtpData) (hacc : accepts localMid a.frame.header = true)
    (hd : decodeArrival v
      (drain (step v isWithin) (.initial localMid signatures) calls).2.nextToken a = .ok d)
    (hb : d.context.btpData = some btp) :
    ServesPort v isWithin (drain (step v isWithin) (.initial localMid signatures) calls).2 a d btp
      (registered btp.destinationPort
        (drain (step v isWithin) (.initial localMid signatures) calls).1) ↔
    (registered btp.destinationPort
      (drain (step v isWithin) (.initial localMid signatures) calls).1).isSome := by
  have hmid : (drain (step v isWithin) (.initial localMid signatures) calls).2.localMid =
      localMid := drain_localMid v isWithin _ calls
  have hreg : registered btp.destinationPort
      (drain (step v isWithin) (.initial localMid signatures) calls).1 =
      parserAt (drain (step v isWithin) (.initial localMid signatures) calls).2.appLayerParsers
        btp.destinationPort :=
    (drain_parserAt v isWithin (.initial localMid signatures) calls btp.destinationPort).symm
  have hacc' := hmid ▸ hacc
  rw [hreg]
  cases hp : parserAt (drain (step v isWithin) (.initial localMid signatures)
      calls).2.appLayerParsers btp.destinationPort with
  | none => simp [run_calls_null hacc' hd hb hp]
  | some app => simp [run_calls_registered hacc' hd hb hp]

def camBtp : BtpData := ⟨.btpB,none,2001,some 0⟩

def camDecoded : Decoded Empty WireArea where
  context :=
    { geonetData := ⟨1,.common,.tsbSingleHop,none,⟨0x20000000001,9,10000000,10000000⟩,.noSecurity,
        none,none,none,none,none,0x1a,1,1⟩
      btpData := some camBtp
      appLayerParserPort := 0
      payload := 0 }
  fate := .released ⟨0,.cohesive ⟨camArrival.frame.packet.buffer,[40,44]⟩⟩

theorem servesPort_camParser :
    (registered 2001 (drain (step wire flatWithin) (.initial 0 ∅) [.enable camParser]).1).isSome ∧
    ServesPort wire flatWithin
      (drain (step wire flatWithin) (.initial 0 ∅) [.enable camParser]).2 camArrival
      camDecoded camBtp
      (registered 2001 (drain (step wire flatWithin) (.initial 0 ∅) [.enable camParser]).1) :=
  ⟨rfl,(servesPort_iff_registered wire flatWithin 0 ∅ [.enable camParser] camArrival camDecoded
    camBtp rfl rfl rfl).mpr rfl⟩

def enabledThenDisabled : List (Call Empty WireArea (Int × Int)) :=
  [.enable camParser,.disable camParser]

theorem disabled_port_calls_null :
    decodeArrival wire 0 camArrival = .ok camDecoded ∧
    camDecoded.context.btpData = some camBtp ∧
    (drain (step wire flatWithin) (.initial 0 ∅) enabledThenDisabled).1 = enabledThenDisabled ∧
    registered camBtp.destinationPort enabledThenDisabled = none ∧
    run wire flatWithin (drain (step wire flatWithin) (.initial 0 ∅) enabledThenDisabled).2
      camArrival = .error .nullParser ∧
    ¬ ServesPort wire flatWithin
      (drain (step wire flatWithin) (.initial 0 ∅) enabledThenDisabled).2 camArrival camDecoded
      camBtp (registered camBtp.destinationPort enabledThenDisabled) :=
  ⟨rfl,rfl,rfl,rfl,rfl,run_calls_null rfl rfl rfl rfl⟩

end Mitvane
