import Mitvane.Pipeline
import Mitvane.Wire

set_option autoImplicit false

namespace Mitvane
open PartialRun
variable {Chunk Certificate Area : Type}

def reportWithoutNh (r : DetectionReport × SignaturesType) : List Signature :=
  r.1.sigs.filter (fun sig => "nh" ∉ sig.patterns)

/-- Same detection data, and the same report for every rule list and position. -/
structure SameDetection (d₁ d₂ : Decoded Chunk Area) : Prop where
  headerType : d₁.context.geonetData.headerType = d₂.context.geonetData.headerType
  maximumHopLimit : d₁.context.geonetData.maximumHopLimit = d₂.context.geonetData.maximumHopLimit
  sourcePosition : d₁.context.geonetData.sourcePosition = d₂.context.geonetData.sourcePosition
  destination : d₁.context.geonetData.destination = d₂.context.geonetData.destination
  btpData : d₁.context.btpData = d₂.context.btpData
  detect : ∀ {Fix : Type} (isWithin : IsWithin Fix) (fix : Fix) (signatures : SignaturesType),
    reportWithoutNh <$> detect isWithin fix d₁.context.geonetData signatures =
      reportWithoutNh <$> detect isWithin fix d₂.context.geonetData signatures

theorem reportWithoutNh_detect {data₁ data₂ : GeonetData Area} (h : SameInner data₁ data₂)
    {Fix : Type} (isWithin : IsWithin Fix) (fix : Fix) (signatures : SignaturesType) :
    reportWithoutNh <$> detect isWithin fix data₁ signatures =
      reportWithoutNh <$> detect isWithin fix data₂ signatures := by
  have hfilter : ((signatures.of .geoNetworking).filter (reported isWithin fix data₁)).filter
        (fun sig => "nh" ∉ sig.patterns) =
      ((signatures.of .geoNetworking).filter (reported isWithin fix data₂)).filter
        (fun sig => "nh" ∉ sig.patterns) := by
    rw [List.filter_filter,List.filter_filter]
    apply List.filter_congr
    intro sig _
    by_cases hnh : "nh" ∈ sig.patterns
    · simp [hnh]
    · rw [reported_congr h (fun hmem => (hnh hmem).elim)]
  rw [detect_eq,detect_eq]
  split
  · rfl
  · exact congrArg Except.ok hfilter

section
variable (v : Vanetza Chunk Certificate Area)

theorem inspectSignerInfo_returns {msg : SecuredMessage Chunk Certificate}
    (h : msg.signerInfo ≠ some (.chain [])) (data : GeonetData Area) :
    ∃ data', inspectSignerInfo v msg data = .ok data' := by
  cases hi : inspectSignerInfo v msg data with
  | error e => exact (h (inspectSignerInfo_error v hi).2).elim
  | ok data' => exact ⟨data',rfl⟩

/-- `secured` carries the PDU of `plain` in its payload: the secured context parses
the headers as the plain one does. -/
structure Wraps (plain secured : IndicationContextBasic Chunk)
    (msg : SecuredMessage Chunk Certificate) : Prop where
  plainHeader : ∃ basic, v.parseBasic plain = some basic ∧ basic.nextHeader = .common
  securedHeader : ∃ basic, v.parseBasic secured = some basic ∧ basic.nextHeader = .secured
  message : v.parseSecured secured = some msg
  signer : msg.signerInfo ≠ some (.chain [])
  common : v.parseCommon (.basic plain) = v.parseCommon (securedContext secured msg.payload)
  extended : v.parseExtended (.basic plain) =
    v.parseExtended (securedContext secured msg.payload)
  btp : SameBtp v (v.finish (.basic plain)) (v.finish (securedContext secured msg.payload))

variable {v} {plain secured : IndicationContextBasic Chunk}
  {msg : SecuredMessage Chunk Certificate}

theorem Wraps.related (h : Wraps v plain secured msg) (t₁ t₂ : Token)
    (b₁ b₂ : DetectionContext Area) (hb : b₁.btpData = b₂.btpData) :
    Related SameBtpData (decodeBasic v t₁ plain b₁) (decodeBasic v t₂ secured b₂) := by
  obtain ⟨basic₁,hplain,hcommon⟩ := h.plainHeader
  obtain ⟨basic₂,hbasic,hsecured⟩ := h.securedHeader
  have hne : basic₁.nextHeader ≠ .secured := by rw [hcommon]; decide
  simp only [decodeBasic,hplain,hbasic,if_neg hne,if_pos hcommon,if_pos hsecured,decodeSecured,
    h.message]
  obtain ⟨data,hdata⟩ := inspectSignerInfo_returns v h.signer
    { b₂.geonetData with
      protocolVersion := UInt32.ofNat basic₂.version.toNat
      remainingPacketLifetime := basic₂.lifetime
      remainingHopLimit := basic₂.hopLimit
      nextHeader := basic₂.nextHeader
      securityInfo := .signed }
  rw [hdata,ok_bind]
  exact decodeCommon_related v h.common h.extended h.btp hb

theorem Wraps.reachedContext_plain (h : Wraps v plain secured msg) :
    reachedContext v plain = some (.basic plain) := by
  obtain ⟨basic,hb,hcommon⟩ := h.plainHeader
  exact reachedContext_common hb hcommon

theorem Wraps.reachedContext_secured (h : Wraps v plain secured msg) :
    reachedContext v secured = some (securedContext secured msg.payload) := by
  obtain ⟨basic,hb,hsec⟩ := h.securedHeader
  rw [Mitvane.reachedContext_secured hb hsec,h.message]
  rfl

theorem Wraps.reachedCommon_eq (h : Wraps v plain secured msg) :
    reachedCommon v plain = reachedCommon v secured := by
  unfold reachedCommon
  rw [h.reachedContext_plain,h.reachedContext_secured]
  exact h.common

theorem Wraps.reachedExtended_eq (h : Wraps v plain secured msg) :
    reachedExtended v plain = reachedExtended v secured := by
  unfold reachedExtended
  rw [h.reachedContext_plain,h.reachedContext_secured]
  simp only [Option.bind_some,extendedIn,h.common,h.extended]

end

/-- Wrapping a packet does not change what rules without a next header see. -/
theorem envelope_hides_nothing (v : Vanetza Chunk Certificate Area)
    (plain secured : UpPacketPtr Chunk) (sender₁ sender₂ destination₁ destination₂ : MacAddress)
    (storage₁ storage₂ : DetectionContext Area) (msg : SecuredMessage Chunk Certificate)
    (hwraps : Wraps v (basicContext plain.packet ⟨sender₁,destination₁⟩)
      (basicContext secured.packet ⟨sender₂,destination₂⟩) msg)
    (hset : (reachedCommon v (basicContext plain.packet ⟨sender₁,destination₁⟩)).isSome ∨
      (storage₁.geonetData.headerType = storage₂.geonetData.headerType ∧
        storage₁.geonetData.maximumHopLimit = storage₂.geonetData.maximumHopLimit)) :
    Related SameDetection (decode v plain sender₁ destination₁ storage₁.defaultInit)
      (decode v secured sender₂ destination₂ storage₂.defaultInit) := by
  apply (hwraps.related plain.token secured.token storage₁.defaultInit storage₂.defaultInit
    rfl).imp
  intro d₁ d₂ h₁ h₂ hbtp
  have l₁ := decodeBasic_leaves v plain.token h₁
  have l₂ := decodeBasic_leaves v secured.token h₂
  rw [hwraps.reachedCommon_eq] at hset
  rw [hwraps.reachedCommon_eq,hwraps.reachedExtended_eq] at l₁
  have hin : SameInner d₁.context.geonetData d₂.context.geonetData := by
    refine ⟨?_,?_,l₁.sourcePosition.trans l₂.sourcePosition.symm⟩
    · rw [l₁.headerType,l₂.headerType]
      rcases hset with hsome | ⟨hht,_⟩
      · obtain ⟨common,hc⟩ := Option.isSome_iff_exists.mp hsome
        rw [hc]
        rfl
      · exact congrArg _ hht
    · rw [l₁.maximumHopLimit,l₂.maximumHopLimit]
      rcases hset with hsome | ⟨_,hmhl⟩
      · obtain ⟨common,hc⟩ := Option.isSome_iff_exists.mp hsome
        rw [hc]
        rfl
      · exact congrArg _ hmhl
  exact
    { headerType := hin.headerType
      maximumHopLimit := hin.maximumHopLimit
      sourcePosition := hin.sourcePosition
      destination := l₁.destination.trans l₂.destination.symm
      btpData := hbtp
      detect := reportWithoutNh_detect hin }

theorem envelope_hides_nothing_camArrival :
    Related SameDetection
      (decode wire ⟨0,.cohesive camArrival.frame.packet⟩ 1 2 zeroStorage.context.defaultInit)
      (decode wire ⟨1,.cohesive securedCamArrival.frame.packet⟩ 1 2
        zeroStorage.context.defaultInit) :=
  envelope_hides_nothing wire ⟨0,.cohesive camArrival.frame.packet⟩
    ⟨1,.cohesive securedCamArrival.frame.packet⟩ 1 1 2 2 zeroStorage.context zeroStorage.context
    ⟨2,none,0,.cohesive ⟨shbInner 2001,[]⟩⟩
    ⟨⟨_,rfl,rfl⟩,⟨_,rfl,rfl⟩,rfl,nofun,rfl,rfl,⟨rfl,rfl⟩⟩ (.inl rfl)

end Mitvane
