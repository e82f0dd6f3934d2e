import Mitvane.HeaderChain
import Mitvane.Wire

set_option autoImplicit false

namespace Mitvane
open PartialRun
variable {Chunk Certificate Area : Type}

structure SameBasic (before after : GeonetData Area) : Prop where
  protocolVersion : after.protocolVersion = before.protocolVersion
  lifetime : after.remainingPacketLifetime = before.remainingPacketLifetime
  hopLimit : after.remainingHopLimit = before.remainingHopLimit
  nextHeader : after.nextHeader = before.nextHeader
  securityInfo : after.securityInfo = before.securityInfo

structure HoldsBasic (basic : BasicHeader) (after : GeonetData Area) : Prop where
  protocolVersion : after.protocolVersion = UInt32.ofNat basic.version.toNat
  lifetime : after.remainingPacketLifetime = basic.lifetime
  hopLimit : after.remainingHopLimit = basic.hopLimit
  nextHeader : after.nextHeader = basic.nextHeader

structure SameSigner (before after : GeonetData Area) : Prop where
  certificateId : after.certificateId = before.certificateId
  payloadType : after.payloadType = before.payloadType
  secureProtocolVersion : after.secureProtocolVersion = before.secureProtocolVersion
  signerInfoType : after.signerInfoType = before.signerInfoType
  chainSize : after.chainSize = before.chainSize

theorem HoldsBasic.trans {basic : BasicHeader} {a b : GeonetData Area} (h : HoldsBasic basic a)
    (hs : SameBasic a b) : HoldsBasic basic b :=
  ⟨hs.protocolVersion.trans h.protocolVersion,hs.lifetime.trans h.lifetime,
    hs.hopLimit.trans h.hopLimit,hs.nextHeader.trans h.nextHeader⟩

theorem SameSigner.trans {a b c : GeonetData Area} (h : SameSigner a b) (hs : SameSigner b c) :
    SameSigner a c :=
  ⟨hs.certificateId.trans h.certificateId,hs.payloadType.trans h.payloadType,
    hs.secureProtocolVersion.trans h.secureProtocolVersion,
    hs.signerInfoType.trans h.signerInfoType,hs.chainSize.trans h.chainSize⟩

def reachedSecured (v : Vanetza Chunk Certificate Area) (ctx : IndicationContextBasic Chunk) :
    Option (SecuredMessage Chunk Certificate) :=
  (v.parseBasic ctx).bind (fun basic =>
    if basic.nextHeader = .secured then v.parseSecured ctx else none)

/-- The announced upper header and the packet it is in, when all headers before it parse. -/
def upperIn (v : Vanetza Chunk Certificate Area) (ctx : IndicationContext Chunk) :
    Option (NextHeaderCommon × PacketVariant Chunk) :=
  (v.parseCommon ctx).bind (fun common =>
    (v.parseExtended ctx common.headerType).map (fun _ => (common.nextHeader,v.finish ctx)))

def reachedUpper (v : Vanetza Chunk Certificate Area) (ctx : IndicationContextBasic Chunk) :
    Option (NextHeaderCommon × PacketVariant Chunk) :=
  (reachedContext v ctx).bind (upperIn v)

structure BtpWrote (v : Vanetza Chunk Certificate Area)
    (upper : Option (NextHeaderCommon × PacketVariant Chunk)) (before after : Option BtpData) :
    Prop where
  btpA : ∀ packet, upper = some (.btpA,packet) → ∃ hdr rest,
    v.parseBtpA packet = some (hdr,rest) ∧
    after = some ⟨.btpA,some hdr.sourcePort,hdr.destinationPort,none⟩
  btpB : ∀ packet, upper = some (.btpB,packet) → ∃ hdr rest,
    v.parseBtpB packet = some (hdr,rest) ∧
    after = some ⟨.btpB,none,hdr.destinationPort,some hdr.destinationPortInfo⟩
  kept : (∀ packet, upper ≠ some (.btpA,packet) ∧ upper ≠ some (.btpB,packet)) → after = before

def BtpUnreadable (v : Vanetza Chunk Certificate Area)
    (upper : Option (NextHeaderCommon × PacketVariant Chunk)) : Prop :=
  ∃ packet, (upper = some (.btpA,packet) ∧ v.parseBtpA packet = none) ∨
    (upper = some (.btpB,packet) ∧ v.parseBtpB packet = none)

section
variable (v : Vanetza Chunk Certificate Area) (token : Token)

theorem btpWrote_none (before : Option BtpData) : BtpWrote v none before before := by
  constructor <;> simp

theorem btpDecode_meets {ind : DataIndication Area} {next : NextHeaderCommon}
    (hup : ind.upperProtocol = upperProtocolOf next) (packet : PacketVariant Chunk)
    (ctx : DetectionContext Area) :
    Meets (btpDecode v ind ⟨token,packet⟩ ctx)
      (fun d => d.context = { ctx with btpData := d.context.btpData } ∧
        BtpWrote v (some (next,packet)) ctx.btpData d.context.btpData)
      (fun e => e = .exception ∧ BtpUnreadable v (some (next,packet))) := by
  unfold btpDecode parseBtpHeader
  rw [hup]
  by_cases hA : next = .btpA
  · subst hA
    have hproto : upperProtocolOf .btpA = .btpA := rfl
    rw [hproto]
    cases hp : v.parseBtpA packet with
    | none => exact ⟨rfl,packet,.inl ⟨rfl,hp⟩⟩
    | some r =>
      refine ⟨rfl,?_,?_,?_⟩
      · intro packet' h
        cases h
        exact ⟨r.1,r.2,hp,rfl⟩
      · intro packet' h
        exact absurd (Prod.mk.inj (Option.some.inj h)).1 (by decide)
      · intro h
        exact absurd rfl (h packet).1
  by_cases hB : next = .btpB
  · subst hB
    have hproto : upperProtocolOf .btpB = .btpB := by decide
    rw [hproto]
    cases hp : v.parseBtpB packet with
    | none => exact ⟨rfl,packet,.inr ⟨rfl,hp⟩⟩
    | some r =>
      refine ⟨rfl,?_,?_,?_⟩
      · intro packet' h
        exact absurd (Prod.mk.inj (Option.some.inj h)).1 hA
      · intro packet' h
        cases h
        exact ⟨r.1,r.2,hp,rfl⟩
      · intro h
        exact absurd rfl (h packet).2
  · have hnot := (upperProtocolOf_btp next).not.mpr (by simp [hA,hB])
    have hkept : BtpWrote v (some (next,packet)) ctx.btpData ctx.btpData := by
      refine ⟨?_,?_,fun _ => rfl⟩
      · intro packet' h
        exact absurd (Prod.mk.inj (Option.some.inj h)).1 hA
      · intro packet' h
        exact absurd (Prod.mk.inj (Option.some.inj h)).1 hB
    cases hproto : upperProtocolOf next with
    | btpA => exact absurd (.inl hproto) hnot
    | btpB => exact absurd (.inr hproto) hnot
    | _ => exact ⟨rfl,hkept⟩

theorem visitExtended_frame (common : CommonHeader) (ind : DataIndication Area)
    (data : GeonetData Area) (ext : ExtendedHeader) :
    SameBasic data (visitExtended v common ind data ext).2 ∧
    SameSigner data (visitExtended v common ind data ext).2 := by
  cases ext <;> exact ⟨⟨rfl,rfl,rfl,rfl,rfl⟩,⟨rfl,rfl,rfl,rfl,rfl⟩⟩

/-- What `decode_common` leaves alone, apart from the header fields in `Leaves`. -/
structure CommonWrote (ctx : IndicationContext Chunk) (before after : DetectionContext Area) :
    Prop where
  basic : SameBasic before.geonetData after.geonetData
  signer : SameSigner before.geonetData after.geonetData
  btpData : BtpWrote v (upperIn v ctx) before.btpData after.btpData
  payload : after.payload = if (v.parseCommon ctx).isSome then token else before.payload
  port : after.appLayerParserPort = before.appLayerParserPort

theorem decodeCommon_meets (ctx : IndicationContext Chunk) (before : DetectionContext Area) :
    Meets (decodeCommon v token ctx before) (fun d => CommonWrote v token ctx before d.context)
      (fun e => e = .exception ∧ BtpUnreadable v (upperIn v ctx)) := by
  unfold decodeCommon
  cases hc : v.parseCommon ctx with
  | none =>
    have hupper : upperIn v ctx = none := by simp [upperIn,hc]
    exact ⟨⟨rfl,rfl,rfl,rfl,rfl⟩,⟨rfl,rfl,rfl,rfl,rfl⟩,hupper ▸ btpWrote_none v before.btpData,
      by simp [hc],rfl⟩
  | some common =>
    simp only [decodeExtended]
    cases he : v.parseExtended ctx common.headerType with
    | none =>
      have hupper : upperIn v ctx = none := by simp [upperIn,hc,he]
      exact ⟨⟨rfl,rfl,rfl,rfl,rfl⟩,⟨rfl,rfl,rfl,rfl,rfl⟩,hupper ▸ btpWrote_none v before.btpData,
        by simp [hc],rfl⟩
    | some ext =>
      have hupper : upperIn v ctx = some (common.nextHeader,v.finish ctx) := by
        simp [upperIn,hc,he]
      obtain ⟨hup,_⟩ := visitExtended_spec v common
        (⟨upperProtocolOf common.nextHeader,common.trafficClass,none,none,none⟩ :
          DataIndication Area)
        { before.geonetData with
          headerType := common.headerType
          maximumHopLimit := common.maximumHopLimit } ext
      obtain ⟨hbasic,hsigner⟩ := visitExtended_frame v common
        (⟨upperProtocolOf common.nextHeader,common.trafficClass,none,none,none⟩ :
          DataIndication Area)
        { before.geonetData with
          headerType := common.headerType
          maximumHopLimit := common.maximumHopLimit } ext
      rw [hupper]
      refine (btpDecode_meets v token hup (v.finish ctx) _).mono ?_ (fun _ he => he)
      intro d hcase
      obtain ⟨hd,hbtp⟩ := hcase
      rw [← hupper] at hbtp
      refine ⟨?_,?_,hbtp,?_,?_⟩
      · rw [hd]
        exact ⟨hbasic.protocolVersion,hbasic.lifetime,hbasic.hopLimit,hbasic.nextHeader,
          hbasic.securityInfo⟩
      · rw [hd]
        exact ⟨hsigner.certificateId,hsigner.payloadType,hsigner.secureProtocolVersion,
          hsigner.signerInfoType,hsigner.chainSize⟩
      · rw [hd]
        simp [hc]
      · rw [hd]

theorem inspectSignerInfo_basic {msg : SecuredMessage Chunk Certificate}
    {data data' : GeonetData Area} (h : inspectSignerInfo v msg data = .ok data') :
    SameBasic data data' := by
  rw [inspectSignerInfo_frame v h]
  exact ⟨rfl,rfl,rfl,rfl,rfl⟩

def securityAfter (next : NextHeaderBasic) (before : SecurityInfo) : SecurityInfo :=
  if next = .secured then .signed else if next = .common then .noSecurity else before

structure OuterWrote (ctx : IndicationContextBasic Chunk) (before after : DetectionContext Area) :
    Prop where
  basicRead : ∀ basic, v.parseBasic ctx = some basic → HoldsBasic basic after.geonetData
  basicKept : v.parseBasic ctx = none → SameBasic before.geonetData after.geonetData
  securityInfo : ∀ basic, v.parseBasic ctx = some basic → after.geonetData.securityInfo =
    securityAfter basic.nextHeader before.geonetData.securityInfo
  signerKept : reachedSecured v ctx = none → SameSigner before.geonetData after.geonetData
  btpData : BtpWrote v (reachedUpper v ctx) before.btpData after.btpData
  payload : after.payload = if (reachedCommon v ctx).isSome then token else before.payload
  port : after.appLayerParserPort = before.appLayerParserPort

/-- The context after decoding, field by field, in terms of the headers that were reached. -/
structure Wrote (ctx : IndicationContextBasic Chunk) (before after : DetectionContext Area) : Prop
    extends OuterWrote v token ctx before after where
  headerType : after.geonetData.headerType =
    ((reachedCommon v ctx).map CommonHeader.headerType).getD before.geonetData.headerType
  maximumHopLimit : after.geonetData.maximumHopLimit =
    ((reachedCommon v ctx).map CommonHeader.maximumHopLimit).getD
      before.geonetData.maximumHopLimit
  sourcePosition : after.geonetData.sourcePosition =
    ((reachedExtended v ctx).bind ExtendedHeader.stored).getD before.geonetData.sourcePosition
  destinationRead : ∀ common gbc, reachedCommon v ctx = some common →
    reachedExtended v ctx = some (.geoBroadcast gbc) →
    after.geonetData.destination = some (v.destination gbc common.headerType)
  destinationKept : (∀ gbc, reachedExtended v ctx ≠ some (.geoBroadcast gbc)) →
    after.geonetData.destination = before.geonetData.destination

/-- The ways in which decoding does not return. -/
def Stuck (ctx : IndicationContextBasic Chunk) (e : Fault) : Prop :=
  (e = .emptyChain ∧ SignedByEmptyChain v ctx) ∨
    (e = .exception ∧ BtpUnreadable v (reachedUpper v ctx))

theorem forall_of_eq_some {α : Type} {o : Option α} {a : α} {P : α → Prop} (h : o = some a)
    (hp : P a) : ∀ b, o = some b → P b := by
  intro b hb
  rw [h] at hb
  exact Option.some.inj hb ▸ hp

theorem outerWrote_stopped {ctx : IndicationContextBasic Chunk}
    {before after : DetectionContext Area} (hctx : reachedContext v ctx = none)
    (hread : ∀ basic, v.parseBasic ctx = some basic → HoldsBasic basic after.geonetData)
    (hkept : v.parseBasic ctx = none → SameBasic before.geonetData after.geonetData)
    (hsecurity : ∀ basic, v.parseBasic ctx = some basic → after.geonetData.securityInfo =
      securityAfter basic.nextHeader before.geonetData.securityInfo)
    (hsigner : SameSigner before.geonetData after.geonetData)
    (hbtp : after.btpData = before.btpData) (hpayload : after.payload = before.payload)
    (hport : after.appLayerParserPort = before.appLayerParserPort) :
    OuterWrote v token ctx before after := by
  refine ⟨hread,hkept,hsecurity,fun _ => hsigner,?_,?_,hport⟩
  · rw [reachedUpper,hctx,hbtp]
    exact btpWrote_none v before.btpData
  · simp [reachedCommon,hctx,hpayload]

theorem CommonWrote.outerWrote {ctx : IndicationContextBasic Chunk} {c : IndicationContext Chunk}
    {basic : BasicHeader} {before mid after : DetectionContext Area}
    (h : CommonWrote v token c mid after) (hctx : reachedContext v ctx = some c)
    (hb : v.parseBasic ctx = some basic) (hmid : HoldsBasic basic mid.geonetData)
    (hsecurity : mid.geonetData.securityInfo =
      securityAfter basic.nextHeader before.geonetData.securityInfo)
    (hsigner : reachedSecured v ctx = none → SameSigner before.geonetData mid.geonetData)
    (hbtp : mid.btpData = before.btpData) (hpayload : mid.payload = before.payload)
    (hport : mid.appLayerParserPort = before.appLayerParserPort) :
    OuterWrote v token ctx before after where
  basicRead := forall_of_eq_some hb (hmid.trans h.basic)
  basicKept := by
    intro hn
    rw [hb] at hn
    cases hn
  securityInfo := forall_of_eq_some hb (h.basic.securityInfo.trans hsecurity)
  signerKept := fun hn => (hsigner hn).trans h.signer
  btpData := by
    have hbtp' := h.btpData
    rw [hbtp] at hbtp'
    simpa [reachedUpper,hctx] using hbtp'
  payload := by simpa [reachedCommon,hctx,hpayload] using h.payload
  port := h.port.trans hport

theorem decodeBasic_outer (ctx : IndicationContextBasic Chunk) (before : DetectionContext Area) :
    Meets (decodeBasic v token ctx before) (fun d => OuterWrote v token ctx before d.context)
      (Stuck v ctx) := by
  unfold decodeBasic
  cases hb : v.parseBasic ctx with
  | none =>
    exact outerWrote_stopped v token (by simp [reachedContext,hb]) (by simp [hb])
      (fun _ => ⟨rfl,rfl,rfl,rfl,rfl⟩) (by simp [hb]) ⟨rfl,rfl,rfl,rfl,rfl⟩ rfl rfl rfl
  | some basic =>
    simp only
    by_cases hsec : basic.nextHeader = .secured
    · rw [if_pos hsec]
      unfold decodeSecured
      cases hs : v.parseSecured ctx with
      | none =>
        refine outerWrote_stopped v token ?_ (forall_of_eq_some hb ⟨rfl,rfl,rfl,rfl⟩)
          (by simp [hb]) (forall_of_eq_some hb (by simp [securityAfter,hsec]))
          ⟨rfl,rfl,rfl,rfl,rfl⟩ rfl rfl rfl
        rw [reachedContext_secured hb hsec,hs]
        rfl
      | some msg =>
        have hctx : reachedContext v ctx = some (securedContext ctx msg.payload) := by
          rw [reachedContext_secured hb hsec,hs]
          rfl
        refine Meets.bind (P := fun data => HoldsBasic basic data ∧ data.securityInfo = .signed) ?_
          (fun data hdata => ?_)
        · cases hi : inspectSignerInfo v msg _ with
          | ok data =>
            have hsame := inspectSignerInfo_basic v hi
            exact ⟨HoldsBasic.trans ⟨rfl,rfl,rfl,rfl⟩ hsame,hsame.securityInfo⟩
          | error e =>
            obtain ⟨he,hchain⟩ := inspectSignerInfo_error v hi
            exact .inl ⟨he,basic,msg,hb,hsec,hs,hchain⟩
        · refine (decodeCommon_meets v token (securedContext ctx msg.payload) _).mono ?_ ?_
          · intro d hd
            exact hd.outerWrote v token hctx hb hdata.1 (by simp [securityAfter,hsec,hdata.2])
              (by simp [reachedSecured,hb,hsec,hs]) rfl rfl rfl
          · intro e hcase
            obtain ⟨he,hbtp⟩ := hcase
            exact .inr ⟨he,by simpa [reachedUpper,hctx] using hbtp⟩
    · rw [if_neg hsec]
      by_cases hcom : basic.nextHeader = .common
      · rw [if_pos hcom]
        have hctx := reachedContext_common hb hcom
        refine (decodeCommon_meets v token (.basic ctx) _).mono ?_ ?_
        · intro d hd
          exact hd.outerWrote v token hctx hb ⟨rfl,rfl,rfl,rfl⟩
            (by simp only [securityAfter,if_neg hsec,if_pos hcom]) (fun _ => ⟨rfl,rfl,rfl,rfl,rfl⟩)
            rfl rfl rfl
        · intro e hcase
          obtain ⟨he,hbtp⟩ := hcase
          exact .inr ⟨he,by simpa [reachedUpper,hctx] using hbtp⟩
      · rw [if_neg hcom]
        exact outerWrote_stopped v token (by simp [reachedContext,hb,hsec,hcom])
          (forall_of_eq_some hb ⟨rfl,rfl,rfl,rfl⟩) (by simp [hb])
          (forall_of_eq_some hb (by simp [securityAfter,hsec,hcom])) ⟨rfl,rfl,rfl,rfl,rfl⟩
          rfl rfl rfl

/-- Decoding writes exactly the fields of the headers it reached, whatever the context
held before, and stops without returning only on an empty chain or a bad BTP header. -/
theorem decode_writes_reached_headers (ptr : UpPacketPtr Chunk) (sender destination : MacAddress)
    (before : DetectionContext Area) :
    Meets (decode v ptr sender destination before)
      (fun d => Wrote v ptr.token (basicContext ptr.packet ⟨sender,destination⟩) before d.context)
      (Stuck v (basicContext ptr.packet ⟨sender,destination⟩)) := by
  unfold decode
  have houter := decodeBasic_outer v ptr.token (basicContext ptr.packet ⟨sender,destination⟩) before
  cases hx : decodeBasic v ptr.token (basicContext ptr.packet ⟨sender,destination⟩) before with
  | error e => exact houter.of_error hx
  | ok d =>
    have hl := decodeBasic_leaves v ptr.token hx
    refine ⟨houter.of_ok hx,hl.headerType,hl.maximumHopLimit,hl.sourcePosition,?_,?_⟩
    · intro common gbc hcommon hgbc
      rw [hl.destination,hcommon,hgbc]
      rfl
    · intro hnot
      have hnone : (reachedCommon v (basicContext ptr.packet ⟨sender,destination⟩)).bind
          (fun c => (reachedExtended v (basicContext ptr.packet ⟨sender,destination⟩)).bind
            (ExtendedHeader.destination v c.headerType)) = none := by
        cases reachedCommon v (basicContext ptr.packet ⟨sender,destination⟩) with
        | none => rfl
        | some common =>
          cases hext : reachedExtended v (basicContext ptr.packet ⟨sender,destination⟩) with
          | none => rfl
          | some ext =>
            cases ext with
            | geoBroadcast gbc => exact absurd hext (hnot gbc)
            | _ => rfl
      rw [hl.destination,hnone]
      rfl

inductive SignerId (msg : SecuredMessage Chunk Certificate) : HashedId8 → Prop where
  | digest {d : HashedId8} : msg.signerInfo = some (.digest d) → SignerId msg d
  | certificate {cert : Certificate} : msg.signerInfo = some (.certificate cert) →
      SignerId msg (v.calculateHash cert)
  | chain {init : List Certificate} {last : Certificate} :
      msg.signerInfo = some (.chain (init ++ [last])) → SignerId msg (v.calculateHash last)

structure SignerInspected (msg : SecuredMessage Chunk Certificate) (data : GeonetData Area) :
    Prop where
  payloadType : data.payloadType = some msg.payloadType
  secureProtocolVersion : data.secureProtocolVersion = some msg.protocolVersion
  signerInfoType : data.signerInfoType = msg.signerInfo.map SignerInfo.getType
  chainSize : ∀ n, data.chainSize = some n ↔
    ∃ certs, msg.signerInfo = some (.chain certs) ∧ n = UInt32.ofNat certs.length
  certificateId : ∀ d, data.certificateId = some d ↔ SignerId v msg d

/-- The signer fields of a context that was just constructed. -/
structure SignerUnset (data : GeonetData Area) : Prop where
  signerInfoType : data.signerInfoType = none
  chainSize : data.chainSize = none
  certificateId : data.certificateId = none

theorem signerId_iff {msg : SecuredMessage Chunk Certificate} {d : HashedId8} :
    SignerId v msg d ↔ msg.signerInfo = some (.digest d) ∨
      (∃ cert, msg.signerInfo = some (.certificate cert) ∧ v.calculateHash cert = d) ∨
      ∃ init last, msg.signerInfo = some (.chain (init ++ [last])) ∧
        v.calculateHash last = d := by
  constructor
  · intro h
    cases h with
    | digest h => exact .inl h
    | certificate h => exact .inr (.inl ⟨_,h,rfl⟩)
    | chain h => exact .inr (.inr ⟨_,_,h,rfl⟩)
  · intro h
    rcases h with h | ⟨cert,h,rfl⟩ | ⟨init,last,h,rfl⟩
    · exact .digest h
    · exact .certificate h
    · exact .chain h

theorem inspectSignerInfo_inspects {msg : SecuredMessage Chunk Certificate}
    {data data' : GeonetData Area} (hunset : SignerUnset data)
    (h : inspectSignerInfo v msg data = .ok data') : SignerInspected v msg data' := by
  obtain ⟨hnone,hchain,hcert⟩ := hunset
  unfold inspectSignerInfo at h
  cases hs : msg.signerInfo with
  | none =>
    simp only [hs] at h
    cases h
    constructor <;> simp [signerId_iff,hs,hnone,hchain,hcert]
  | some info =>
    cases info with
    | chain certs =>
      cases hl : certs.getLast? with
      | none => simp [hs,hl] at h
      | some last =>
        obtain ⟨init,rfl⟩ := List.getLast?_eq_some_iff.mp hl
        simp only [hs,hl] at h
        cases h
        constructor <;> simp [signerId_iff,hs,eq_comm]
    | _ =>
      simp only [hs] at h
      cases h
      constructor <;> simp [signerId_iff,hs,hchain,hcert]

/-- The inspection returns with the fields of the message, and decoding does not run
into an empty chain. -/
def SignerHandled (ptr : UpPacketPtr Chunk) (sender destination : MacAddress)
    (storage : DetectionContext Area) (msg : SecuredMessage Chunk Certificate) : Prop :=
  (∀ data : GeonetData Area, SignerUnset data → ∃ data', inspectSignerInfo v msg data = .ok data' ∧
    SignerInspected v msg data') ∧
  decode v ptr sender destination storage.defaultInit ≠ .error .emptyChain

/-- Every secured message is handled, except one signed by a chain without certificates. -/
theorem signer_handled_iff (ptr : UpPacketPtr Chunk) (sender destination : MacAddress)
    (storage : DetectionContext Area) (basic : BasicHeader)
    (msg : SecuredMessage Chunk Certificate)
    (hb : v.parseBasic (basicContext ptr.packet ⟨sender,destination⟩) = some basic)
    (hsec : basic.nextHeader = .secured)
    (hs : v.parseSecured (basicContext ptr.packet ⟨sender,destination⟩) = some msg) :
    SignerHandled v ptr sender destination storage msg ↔ msg.signerInfo ≠ some (.chain []) := by
  constructor
  · intro h hchain
    exact h.2 (decodeBasic_emptyChain v ptr.token ⟨basic,msg,hb,hsec,hs,hchain⟩ _)
  · intro hchain
    constructor
    · intro data hunset
      cases hx : inspectSignerInfo v msg data with
      | ok data' => exact ⟨data',rfl,inspectSignerInfo_inspects v hunset hx⟩
      | error e => exact absurd (inspectSignerInfo_error v hx).2 hchain
    · intro hdecode
      rcases decodeBasic_error v ptr.token hdecode with ⟨_,_,msg',_,_,hs',hchain'⟩ | ⟨he,_⟩
      · rw [hs] at hs'
        cases hs'
        exact hchain hchain'
      · cases he

end

def signedWire (info : SignerInfo Empty) : Vanetza Empty Empty WireArea :=
  { wire with parseSecured := fun ctx =>
      (wire.parseSecured ctx).map (fun msg => { msg with signerInfo := some info }) }

def securedCamPacket : UpPacketPtr Empty := ⟨1,.cohesive ⟨envelopeBytes (shbInner 2001),[]⟩⟩

def securedCamMessage (info : SignerInfo Empty) : SecuredMessage Empty Empty :=
  ⟨2,some info,0,.cohesive ⟨shbInner 2001,[]⟩⟩

theorem signer_handled_digest :
    SignerHandled (signedWire (.digest 7)) securedCamPacket 1 2 zeroStorage.context
      (securedCamMessage (.digest 7)) :=
  (signer_handled_iff (signedWire (.digest 7)) securedCamPacket 1 2 zeroStorage.context
    ⟨1,.secured,0x1a,1⟩ (securedCamMessage (.digest 7)) rfl rfl rfl).mpr (by simp [securedCamMessage])

/-- A chain without certificates makes the decoder ask an empty list for its last. -/
theorem empty_chain_not_handled :
    (signedWire (.chain [])).parseSecured
      (basicContext securedCamPacket.packet ⟨1,2⟩) = some (securedCamMessage (.chain [])) ∧
    ¬ SignerHandled (signedWire (.chain [])) securedCamPacket 1 2 zeroStorage.context
      (securedCamMessage (.chain [])) := by
  refine ⟨rfl,?_⟩
  intro h
  exact h.2 rfl

end Mitvane
