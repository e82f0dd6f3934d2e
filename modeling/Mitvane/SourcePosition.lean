import Mitvane.UnsetFields
import Mitvane.Vocabulary

set_option autoImplicit false

namespace Mitvane
open PartialRun
variable {Chunk Certificate Area Fix : Type}

theorem ExtendedHeader.stored_eq_some {ext : ExtendedHeader} {pos : ShortPositionVector}
    (h : ext.stored = some pos) : pos = ext.sourcePosition.toShort := by
  cases ext with
  | beacon hdr => cases h
  | _ => exact (Option.some.inj h).symm

theorem stored_isSome_iff (ext : Option ExtendedHeader) :
    (ext.bind ExtendedHeader.stored).isSome ↔
      (∃ h, ext = some (.shb h)) ∨ ∃ h, ext = some (.geoBroadcast h) := by
  cases ext with
  | none => simp
  | some ext => cases ext <;> simp [ExtendedHeader.stored]

/-- The position compared with the circle was stored from the extended header of this
packet, is the one the header carries and lies outside the circle. -/
def DecidedOnOwnPosition (v : Vanetza Chunk Certificate Area)
    (ctx : IndicationContextBasic Chunk) (isWithin : IsWithin Fix) (fix : Fix)
    (range : GeonetAllowedSoRange) (data : GeonetData Area) : Prop :=
  ∃ ext, reachedExtended v ctx = some ext ∧ ext.stored = some data.sourcePosition ∧
    data.sourcePosition.latitude = ext.sourcePosition.latitude ∧
    data.sourcePosition.longitude = ext.sourcePosition.longitude ∧
    isWithin data.sourcePosition.latitude data.sourcePosition.longitude fix range.distanceA = false

/-- A pattern other than the range fails on the header fields of the packet. -/
def OtherPatternFails (isWithin : IsWithin Fix) (fix : Fix) (sig : Signature)
    (data : GeonetData Area) : Prop :=
  ∃ key p, key ≠ "allowed_so_range" ∧ sig.patterns.lookup key = some p ∧
    ¬ Holds isWithin fix data key p

section
variable {v : Vanetza Chunk Certificate Area} {isWithin : IsWithin Fix}

theorem Processed.mem_report_iff {y : Conversions} {s s' : IdpsState Chunk}
    {a : Arrival Area Fix} {d : Decoded Chunk Area} {report : DetectionReport} {sig : Signature}
    (h : Processed v isWithin s a s' d report) (hprod : Produced y s.signatures)
    (hsig : sig ∈ s.signatures.of .geoNetworking) :
    sig ∈ report.sigs ↔ reported isWithin a.fix d.context.geonetData sig = true := by
  cases hm : s.signatures.lookup .geoNetworking with
  | none => simp [SignaturesType.of,hm] at hsig
  | some sigs =>
    have hof : s.signatures.of .geoNetworking = sigs := by simp [SignaturesType.of,hm]
    rw [hof] at hsig
    have hconf := hprod.conforms
    rw [hof] at hconf
    have hthrow : sigs.any Signature.throws = false := by
      rw [List.any_eq_false]
      intro sig' hsig'
      simp [(hconf sig' hsig').throws_eq_false]
    have hdet := h.detected
    have hgn : Protocol.geoNetworking ∈ s.signatures := Finmap.mem_of_lookup_eq_some hm
    simp only [detectStep,if_pos hgn,detect_of_lookup hm,hthrow,Bool.false_eq_true,if_false,
      Except.ok.injEq,Prod.mk.injEq] at hdet
    obtain ⟨hreport,_⟩ := hdet
    subst hreport
    simp [hsig]

theorem decided_of_stored {ctx : IndicationContextBasic Chunk} {fix : Fix} {sig : Signature}
    {range : GeonetAllowedSoRange} {data : GeonetData Area}
    (hpos : data.sourcePosition =
      ((reachedExtended v ctx).bind ExtendedHeader.stored).getD .default)
    (hstored : ((reachedExtended v ctx).bind ExtendedHeader.stored).isSome)
    (hrange : sig.patterns.lookup "allowed_so_range" = some (.allowedSoRange range))
    (hall : AllHold isWithin fix data sig) :
    DecidedOnOwnPosition v ctx isWithin fix range data := by
  cases hext : reachedExtended v ctx with
  | none => simp [hext] at hstored
  | some ext =>
    cases hs : ext.stored with
    | none => simp [hext,hs] at hstored
    | some pos =>
      have hdata : data.sourcePosition = pos := by simpa [hext,hs] using hpos
      have hown := ExtendedHeader.stored_eq_some hs
      obtain ⟨r,hr,hout⟩ := holds_allowedSoRange_iff.mp (hall _ _ hrange)
      cases hr
      refine ⟨ext,hext,by rw [hdata]; exact hs,?_,?_,hout⟩
      · rw [hdata,hown]; rfl
      · rw [hdata,hown]; rfl

theorem allHold_of_default {fix : Fix} {sig : Signature} {range : GeonetAllowedSoRange}
    {data : GeonetData Area} (hpos : data.sourcePosition = .default)
    (hrange : sig.patterns.lookup "allowed_so_range" = some (.allowedSoRange range))
    (hout : isWithin 0 0 fix range.distanceA = false)
    (hother : ¬ OtherPatternFails isWithin fix sig data) : AllHold isWithin fix data sig := by
  intro key p hp
  by_cases hk : key = "allowed_so_range"
  · subst hk
    rw [hrange] at hp
    cases hp
    exact .allowedSoRange (by rw [hpos]; exact hout)
  · by_contra hfail
    exact hother ⟨key,p,hk,hp,hfail⟩

end

/-- An area rule that is reported was decided on the packet's own position exactly when
the header stores one, or the default position could not have matched. -/
theorem area_rule_own_position_iff (y : Conversions) (v : Vanetza Chunk Certificate Area)
    (isWithin : IsWithin Fix) (s s' : IdpsState Chunk) (a : Arrival Area Fix) (sig : Signature)
    (range : GeonetAllowedSoRange) (hprod : Produced y s.signatures)
    (hsig : sig ∈ s.signatures.of .geoNetworking)
    (hrange : sig.patterns.lookup "allowed_so_range" = some (.allowedSoRange range))
    (hacc : accepts s.localMid a.frame.header = true) (hrun : run v isWithin s a = .ok s') :
    ∃ d report, Processed v isWithin s a s' d report ∧
      ((sig ∈ report.sigs → DecidedOnOwnPosition v (received Chunk a) isWithin a.fix range
          d.context.geonetData) ↔
        (((∃ h, reachedExtended v (received Chunk a) = some (.shb h)) ∨
          ∃ h, reachedExtended v (received Chunk a) = some (.geoBroadcast h)) ∨
        isWithin 0 0 a.fix range.distanceA = true ∨
        OtherPatternFails isWithin a.fix sig
          ((packetFields v (received Chunk a)).over a.storage.context.geonetData))) := by
  obtain ⟨d,report,hp⟩ := run_processed hacc hrun
  refine ⟨d,report,hp,?_⟩
  have hpos := (decodeArrival_leaves hp.decoded).sourcePosition
  rw [hp.mem_report_iff hprod hsig,← stored_isSome_iff]
  constructor
  · intro h
    by_contra hcond
    simp only [not_or,Bool.not_eq_true] at hcond
    obtain ⟨hstored,hout,hother⟩ := hcond
    have hnone : (packetFields v (received Chunk a)).sourcePosition = none := by
      simpa [packetFields] using hstored
    have hdefault : ((packetFields v (received Chunk a)).over
        a.storage.context.geonetData).sourcePosition = .default := by
      simp [PacketFields.over,hnone]
    have hall := allHold_of_default hdefault hrange hout hother
    have hrep := (reported_iff _ _ _ _).mpr hall
    rw [← reported_over hp.decoded isWithin a.fix sig] at hrep
    obtain ⟨ext,hext,hs,_⟩ := h hrep
    simp [hext,hs] at hstored
  · intro hcond hrep
    have hall := (reported_iff _ _ _ _).mp hrep
    cases hstored : ((reachedExtended v (received Chunk a)).bind ExtendedHeader.stored).isSome with
    | true => exact decided_of_stored hpos hstored hrange hall
    | false =>
      rcases hcond with h | hin | ⟨key,p,_,hl,hfail⟩
      · simp [hstored] at h
      · obtain ⟨r,hr,hout⟩ := holds_allowedSoRange_iff.mp (hall _ _ hrange)
        cases hr
        have hdefault : d.context.geonetData.sourcePosition = .default := by
          have hnone : (reachedExtended v (received Chunk a)).bind ExtendedHeader.stored = none := by
            simpa using hstored
          rw [hpos,hnone]
          rfl
        rw [hdefault] at hout
        have hcontra : isWithin 0 0 a.fix range.distanceA = false := hout
        rw [hin] at hcontra
        cases hcontra
      · rw [reported_over hp.decoded isWithin a.fix sig,reported_iff] at hrep
        exact (hfail (hrep key p hl)).elim

def areaRule : Node := Node.ofFields
  [("action",.scalar "drop"),("protocol",.scalar "GeoNetworking"),
   ("meta",Node.ofFields
     [("msg",.scalar "A packet from not trusted ITS-S is detected. (Area based)"),
      ("sid",.scalar "5"),("rev",.scalar "1")]),
   ("allowed_so_range",Node.ofFields
     [("shape",.scalar "circle"),("distance_a",.scalar "100"),("distance_b",.scalar "100")])]

def areaSignature : Signature where
  action := .drop
  protocol := .geoNetworking
  metaData := ⟨"A packet from not trusted ITS-S is detected. (Area based)",5,1⟩
  patterns := (∅ : StdMap String PatternType).insert "allowed_so_range"
    (.allowedSoRange ⟨.circle,100,100⟩)

def areaRules : SignaturesType := appendSignature ∅ .geoNetworking areaSignature

theorem produced_areaRules : Produced decimalConversions areaRules :=
  @Produced.read decimalConversions (ruleDocument [areaRule]) ∅ areaRules .success .empty rfl

theorem area_rule_own_position_camArrival :
    ∃ s' d report, run wire flatWithin (camStation areaRules) camArrival = .ok s' ∧
      Processed wire flatWithin (camStation areaRules) camArrival s' d report ∧
      (areaSignature ∈ report.sigs → DecidedOnOwnPosition wire (received Empty camArrival)
        flatWithin camArrival.fix ⟨.circle,100,100⟩ d.context.geonetData) := by
  obtain ⟨d,report,hp,hiff⟩ := area_rule_own_position_iff decimalConversions wire flatWithin
    (camStation areaRules) _ camArrival areaSignature ⟨.circle,100,100⟩ produced_areaRules
    (by decide) rfl rfl rfl
  exact ⟨_,d,report,rfl,hp,hiff.mpr (.inl (.inl ⟨_,rfl⟩))⟩

def beaconDecoded : Decoded Empty WireArea where
  context :=
    { geonetData := ⟨1,.common,.beacon,none,.default,.noSecurity,none,none,none,none,none,0x1a,1,1⟩
      btpData := none
      appLayerParserPort := 0
      payload := 0 }
  fate := .released ⟨0,.cohesive ⟨beaconArrival.frame.packet.buffer,[36]⟩⟩

theorem beacon_decided_on_default_position :
    ∃ s' d report, run wire flatWithin (camStation areaRules) beaconArrival = .ok s' ∧
      Processed wire flatWithin (camStation areaRules) beaconArrival s' d report ∧
      areaSignature ∈ report.sigs ∧ s'.transmitted = [] ∧
      (∃ h, reachedExtended wire (received Empty beaconArrival) = some (.beacon h) ∧
        flatWithin h.sourcePosition.latitude h.sourcePosition.longitude beaconArrival.fix 100 =
          true) ∧
      ¬ DecidedOnOwnPosition wire (received Empty beaconArrival) flatWithin beaconArrival.fix
        ⟨.circle,100,100⟩ d.context.geonetData := by
  refine ⟨_,beaconDecoded,⟨[areaSignature],0⟩,rfl,⟨rfl,rfl,rfl,rfl,rfl,rfl,rfl,rfl,rfl⟩,
    List.mem_singleton.mpr rfl,rfl,⟨_,rfl,rfl⟩,?_⟩
  intro h
  obtain ⟨ext,hext,hs,_⟩ := h
  cases hext
  cases hs

end Mitvane
