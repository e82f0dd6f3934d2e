import Mitvane.Decoder

/-! How far decoding gets on a packet, in terms of vanetza's parsers alone, and what
the decoder leaves behind in each case. -/
set_option autoImplicit false

namespace Mitvane
open PartialRun
variable {Chunk Certificate Area : Type}

/-- The context in which the common header is looked for, if decoding gets there. -/
def reachedContext (v : Vanetza Chunk Certificate Area) (ctx : IndicationContextBasic Chunk) :
    Option (IndicationContext Chunk) :=
  match v.parseBasic ctx with
  | none => none
  | some basic =>
    if basic.nextHeader = .secured then
      (v.parseSecured ctx).map (fun msg => securedContext ctx msg.payload)
    else if basic.nextHeader = .common then some (.basic ctx)
    else none

def reachedCommon (v : Vanetza Chunk Certificate Area) (ctx : IndicationContextBasic Chunk) :
    Option CommonHeader :=
  (reachedContext v ctx).bind v.parseCommon

def extendedIn (v : Vanetza Chunk Certificate Area) (ctx : IndicationContext Chunk) :
    Option ExtendedHeader :=
  (v.parseCommon ctx).bind (fun common => v.parseExtended ctx common.headerType)

def reachedExtended (v : Vanetza Chunk Certificate Area) (ctx : IndicationContextBasic Chunk) :
    Option ExtendedHeader :=
  (reachedContext v ctx).bind (extendedIn v)

theorem reachedContext_secured {v : Vanetza Chunk Certificate Area}
    {ctx : IndicationContextBasic Chunk} {basic : BasicHeader}
    (hb : v.parseBasic ctx = some basic) (hsec : basic.nextHeader = .secured) :
    reachedContext v ctx =
      (v.parseSecured ctx).map (fun msg => securedContext ctx msg.payload) := by
  simp [reachedContext,hb,hsec]

theorem reachedContext_common {v : Vanetza Chunk Certificate Area}
    {ctx : IndicationContextBasic Chunk} {basic : BasicHeader}
    (hb : v.parseBasic ctx = some basic) (hcom : basic.nextHeader = .common) :
    reachedContext v ctx = some (.basic ctx) := by
  have hsec : basic.nextHeader ≠ .secured := by rw [hcom]; decide
  simp only [reachedContext,hb,if_neg hsec,if_pos hcom]

/-- The source position that the visitor stores; a beacon has one that it does not. -/
def ExtendedHeader.stored : ExtendedHeader → Option ShortPositionVector
  | .shb h => some h.sourcePosition.toShort
  | .geoBroadcast h => some h.sourcePosition.toShort
  | .beacon _ => none

def ExtendedHeader.destination (v : Vanetza Chunk Certificate Area) (ht : HeaderType) :
    ExtendedHeader → Option Area
  | .geoBroadcast h => some (v.destination h ht)
  | _ => none

def CommonHeader.carriesBtp (common : CommonHeader) : Bool :=
  common.nextHeader = .btpA || common.nextHeader = .btpB

/-- What decoding leaves in a context that was `before`. The next header is the one of
the basic header where that was parsed; `common` and `extended` are what is found after it. -/
structure Leaves (v : Vanetza Chunk Certificate Area) (token : Token)
    (next : Option NextHeaderBasic) (common : Option CommonHeader)
    (extended : Option ExtendedHeader) (before : DetectionContext Area)
    (d : Decoded Chunk Area) : Prop where
  nextHeader : d.context.geonetData.nextHeader = next.getD before.geonetData.nextHeader
  headerType : d.context.geonetData.headerType =
    (common.map CommonHeader.headerType).getD before.geonetData.headerType
  maximumHopLimit : d.context.geonetData.maximumHopLimit =
    (common.map CommonHeader.maximumHopLimit).getD before.geonetData.maximumHopLimit
  sourcePosition : d.context.geonetData.sourcePosition =
    (extended.bind ExtendedHeader.stored).getD before.geonetData.sourcePosition
  destination : d.context.geonetData.destination =
    (common.bind (fun c => extended.bind (ExtendedHeader.destination v c.headerType))).or
      before.geonetData.destination
  disposed : extended = none → d.fate = .disposed token
  released : extended.isSome → d.context.payload = token ∧
    ∃ packet, d.fate = .released ⟨token,packet⟩
  btpData : d.context.btpData.isSome ↔ before.btpData.isSome ∨
    (extended.isSome ∧ ∃ c, common = some c ∧ c.carriesBtp = true)

section
variable (v : Vanetza Chunk Certificate Area) (token : Token)

theorem upperProtocolOf_btp (next : NextHeaderCommon) :
    (upperProtocolOf next = .btpA ∨ upperProtocolOf next = .btpB) ↔
      next = .btpA ∨ next = .btpB := by
  unfold upperProtocolOf
  by_cases h₁ : next = .btpA
  · simp [h₁]
  by_cases h₂ : next = .btpB
  · subst h₂; decide
  by_cases h₃ : next = .ipv6
  · subst h₃; decide
  · simp [h₁,h₂,h₃]

theorem btpDecode_ok {ind : DataIndication Area} {ptr : UpPacketPtr Chunk}
    {ctx : DetectionContext Area} {d : Decoded Chunk Area} (h : btpDecode v ind ptr ctx = .ok d) :
    d.context.geonetData = ctx.geonetData ∧ d.context.payload = ctx.payload ∧
    (∃ packet, d.fate = .released ⟨ptr.token,packet⟩) ∧
    (d.context.btpData.isSome ↔ ctx.btpData.isSome ∨
      (ind.upperProtocol = .btpA ∨ ind.upperProtocol = .btpB)) := by
  simp only [btpDecode,bind_eq_ok,pure_eq_ok] at h
  obtain ⟨⟨packet,ctx'⟩,hp,rfl⟩ := h
  unfold parseBtpHeader at hp
  cases hu : ind.upperProtocol with
  | btpA =>
    cases hb : v.parseBtpA ptr.packet with
    | none => simp [hu,hb] at hp
    | some r =>
      simp only [hu,hb] at hp
      cases hp
      simp
  | btpB =>
    cases hb : v.parseBtpB ptr.packet with
    | none => simp [hu,hb] at hp
    | some r =>
      simp only [hu,hb] at hp
      cases hp
      simp
  | _ =>
    simp only [hu] at hp
    cases hp
    simp

theorem visitExtended_spec (common : CommonHeader) (ind : DataIndication Area)
    (data : GeonetData Area) (ext : ExtendedHeader) :
    (visitExtended v common ind data ext).1.upperProtocol = ind.upperProtocol ∧
    (visitExtended v common ind data ext).2.nextHeader = data.nextHeader ∧
    (visitExtended v common ind data ext).2.headerType = data.headerType ∧
    (visitExtended v common ind data ext).2.maximumHopLimit = data.maximumHopLimit ∧
    (visitExtended v common ind data ext).2.sourcePosition =
      ext.stored.getD data.sourcePosition ∧
    (visitExtended v common ind data ext).2.destination =
      (ext.destination v common.headerType).or data.destination := by
  cases ext <;> simp [visitExtended,ExtendedHeader.stored,ExtendedHeader.destination]

theorem decodeCommon_leaves {ctx : IndicationContext Chunk} {before : DetectionContext Area}
    {d : Decoded Chunk Area} (h : decodeCommon v token ctx before = .ok d) :
    Leaves v token none (v.parseCommon ctx) (extendedIn v ctx) before d := by
  unfold decodeCommon at h
  cases hc : v.parseCommon ctx with
  | none =>
    simp only [hc] at h
    cases h
    constructor <;> simp [extendedIn,hc]
  | some common =>
    simp only [hc,decodeExtended] at h
    cases he : v.parseExtended ctx common.headerType with
    | none =>
      simp only [he] at h
      cases h
      constructor <;> simp [extendedIn,hc,he]
    | some ext =>
      simp only [he,passUp] at h
      obtain ⟨hdata,hpayload,hfate,hbtp⟩ := btpDecode_ok v h
      obtain ⟨hup,hnh,hht,hmhl,hpos,hdest⟩ := visitExtended_spec v common
        (⟨upperProtocolOf common.nextHeader,common.trafficClass,none,none,none⟩ :
          DataIndication Area)
        { before.geonetData with
          headerType := common.headerType
          maximumHopLimit := common.maximumHopLimit } ext
      have hext : extendedIn v ctx = some ext := by simp [extendedIn,hc,he]
      rw [hext]
      constructor
      · rw [hdata]; exact hnh
      · rw [hdata]; exact hht
      · rw [hdata]; exact hmhl
      · rw [hdata]; exact hpos
      · rw [hdata]; exact hdest
      · intro hn; cases hn
      · exact fun _ => ⟨hpayload,hfate⟩
      · rw [hbtp,hup]
        simp [upperProtocolOf_btp,CommonHeader.carriesBtp]

theorem inspectSignerInfo_frame {msg : SecuredMessage Chunk Certificate}
    {data data' : GeonetData Area} (h : inspectSignerInfo v msg data = .ok data') :
    data' = { data with
      certificateId := data'.certificateId
      payloadType := data'.payloadType
      secureProtocolVersion := data'.secureProtocolVersion
      signerInfoType := data'.signerInfoType
      chainSize := data'.chainSize } := by
  unfold inspectSignerInfo at h
  cases hs : msg.signerInfo with
  | none =>
    simp only [hs] at h
    cases h
    rfl
  | some info =>
    cases info with
    | chain certs =>
      cases hl : certs.getLast? with
      | none => simp [hs,hl] at h
      | some cert =>
        simp only [hs,hl] at h
        cases h
        rfl
    | _ =>
      simp only [hs] at h
      cases h
      rfl

/-- `Leaves` only asks about some fields of the context before. -/
theorem Leaves.of_before {v : Vanetza Chunk Certificate Area} {token : Token}
    {next : Option NextHeaderBasic} {common : Option CommonHeader}
    {extended : Option ExtendedHeader} {b b' : DetectionContext Area} {d : Decoded Chunk Area}
    (h : Leaves v token none common extended b' d)
    (hnh : b'.geonetData.nextHeader = next.getD b.geonetData.nextHeader)
    (hht : b'.geonetData.headerType = b.geonetData.headerType)
    (hmhl : b'.geonetData.maximumHopLimit = b.geonetData.maximumHopLimit)
    (hpos : b'.geonetData.sourcePosition = b.geonetData.sourcePosition)
    (hdest : b'.geonetData.destination = b.geonetData.destination)
    (hbtp : b'.btpData = b.btpData) : Leaves v token next common extended b d where
  nextHeader := h.nextHeader.trans hnh
  headerType := by rw [h.headerType,hht]
  maximumHopLimit := by rw [h.maximumHopLimit,hmhl]
  sourcePosition := by rw [h.sourcePosition,hpos]
  destination := by rw [h.destination,hdest]
  disposed := h.disposed
  released := h.released
  btpData := by rw [h.btpData,hbtp]

theorem leaves_stopped (before : DetectionContext Area) :
    Leaves v token none none none before (⟨before,.disposed token⟩ : Decoded Chunk Area) := by
  constructor <;> simp

theorem decodeSecured_leaves {ctx : IndicationContextBasic Chunk}
    {before : DetectionContext Area} {d : Decoded Chunk Area}
    (h : decodeSecured v token ctx before = .ok d) :
    Leaves v token none
      (((v.parseSecured ctx).map (fun msg => securedContext ctx msg.payload)).bind v.parseCommon)
      (((v.parseSecured ctx).map (fun msg => securedContext ctx msg.payload)).bind (extendedIn v))
      before d := by
  unfold decodeSecured at h
  cases hs : v.parseSecured ctx with
  | none =>
    simp only [hs] at h
    cases h
    exact leaves_stopped v token before
  | some msg =>
    simp only [hs,bind_eq_ok] at h
    obtain ⟨data,hdata,hcommon⟩ := h
    rw [inspectSignerInfo_frame v hdata] at hcommon
    exact (decodeCommon_leaves v token hcommon).of_before rfl rfl rfl rfl rfl rfl

theorem decodeBasic_leaves {ctx : IndicationContextBasic Chunk}
    {before : DetectionContext Area} {d : Decoded Chunk Area}
    (h : decodeBasic v token ctx before = .ok d) :
    Leaves v token ((v.parseBasic ctx).map BasicHeader.nextHeader) (reachedCommon v ctx)
      (reachedExtended v ctx) before d := by
  unfold decodeBasic at h
  unfold reachedCommon reachedExtended reachedContext
  cases hb : v.parseBasic ctx with
  | none =>
    simp only [hb] at h
    cases h
    exact leaves_stopped v token before
  | some basic =>
    simp only [hb] at h ⊢
    by_cases hsec : basic.nextHeader = .secured
    · rw [if_pos hsec] at h ⊢
      exact (decodeSecured_leaves v token h).of_before rfl rfl rfl rfl rfl rfl
    · rw [if_neg hsec] at h ⊢
      by_cases hcom : basic.nextHeader = .common
      · rw [if_pos hcom] at h ⊢
        exact (decodeCommon_leaves v token h).of_before rfl rfl rfl rfl rfl rfl
      · rw [if_neg hcom] at h ⊢
        cases h
        exact (leaves_stopped v token _).of_before rfl rfl rfl rfl rfl rfl

end

section
variable (v : Vanetza Chunk Certificate Area) (token : Token)

def SignedByEmptyChain (ctx : IndicationContextBasic Chunk) : Prop :=
  ∃ basic msg, v.parseBasic ctx = some basic ∧ basic.nextHeader = .secured ∧
    v.parseSecured ctx = some msg ∧ msg.signerInfo = some (.chain [])

theorem inspectSignerInfo_error {msg : SecuredMessage Chunk Certificate}
    {data : GeonetData Area} {e : Fault} (h : inspectSignerInfo v msg data = .error e) :
    e = .emptyChain ∧ msg.signerInfo = some (.chain []) := by
  unfold inspectSignerInfo at h
  cases hs : msg.signerInfo with
  | none => simp [hs] at h
  | some info =>
    cases info with
    | chain certs =>
      cases hl : certs.getLast? with
      | none =>
        simp only [hs,hl] at h
        cases h
        exact ⟨rfl,by rw [List.getLast?_eq_none_iff.mp hl]⟩
      | some cert => simp [hs,hl] at h
    | _ => simp [hs] at h

theorem btpDecode_error {ind : DataIndication Area} {ptr : UpPacketPtr Chunk}
    {ctx : DetectionContext Area} {e : Fault} (h : btpDecode v ind ptr ctx = .error e) :
    e = .exception := by
  simp only [btpDecode,bind_eq_error,pure_ne_error,and_false,exists_false,or_false] at h
  unfold parseBtpHeader at h
  cases hu : ind.upperProtocol with
  | btpA => cases hb : v.parseBtpA ptr.packet <;> simp [hu,hb] at h; exact h.symm
  | btpB => cases hb : v.parseBtpB ptr.packet <;> simp [hu,hb] at h; exact h.symm
  | _ => simp [hu] at h

theorem decodeCommon_error {ctx : IndicationContext Chunk} {before : DetectionContext Area}
    {e : Fault} (h : decodeCommon v token ctx before = .error e) :
    e = .exception ∧ (extendedIn v ctx).isSome := by
  unfold decodeCommon at h
  cases hc : v.parseCommon ctx with
  | none => simp [hc] at h
  | some common =>
    simp only [hc,decodeExtended] at h
    cases he : v.parseExtended ctx common.headerType with
    | none => simp [he] at h
    | some ext =>
      simp only [he] at h
      exact ⟨btpDecode_error v h,by simp [extendedIn,hc,he]⟩

theorem decodeBasic_error {ctx : IndicationContextBasic Chunk}
    {before : DetectionContext Area} {e : Fault}
    (h : decodeBasic v token ctx before = .error e) :
    (e = .emptyChain ∧ SignedByEmptyChain v ctx) ∨
      (e = .exception ∧ (reachedExtended v ctx).isSome) := by
  unfold decodeBasic at h
  cases hb : v.parseBasic ctx with
  | none => simp [hb] at h
  | some basic =>
    simp only [hb] at h
    by_cases hsec : basic.nextHeader = .secured
    · simp only [if_pos hsec,decodeSecured] at h
      cases hs : v.parseSecured ctx with
      | none => simp [hs] at h
      | some msg =>
        simp only [hs,bind_eq_error] at h
        rcases h with h | ⟨data,_,h⟩
        · obtain ⟨he,hchain⟩ := inspectSignerInfo_error v h
          exact .inl ⟨he,basic,msg,hb,hsec,hs,hchain⟩
        · obtain ⟨he,hext⟩ := decodeCommon_error v token h
          refine .inr ⟨he,?_⟩
          simpa [reachedExtended,reachedContext_secured hb hsec,hs] using hext
    · simp only [if_neg hsec] at h
      by_cases hcom : basic.nextHeader = .common
      · simp only [if_pos hcom] at h
        obtain ⟨he,hext⟩ := decodeCommon_error v token h
        refine .inr ⟨he,?_⟩
        simpa [reachedExtended,reachedContext_common hb hcom] using hext
      · simp only [if_neg hcom] at h
        cases h

theorem decodeBasic_emptyChain {ctx : IndicationContextBasic Chunk}
    (h : SignedByEmptyChain v ctx) (before : DetectionContext Area) :
    decodeBasic v token ctx before = .error .emptyChain := by
  obtain ⟨basic,msg,hb,hsec,hs,hchain⟩ := h
  simp [decodeBasic,hb,hsec,decodeSecured,hs,inspectSignerInfo,hchain]

end

section
variable (v : Vanetza Chunk Certificate Area) {t₁ t₂ : Token}

structure SameBtp (p₁ p₂ : PacketVariant Chunk) : Prop where
  btpA : (v.parseBtpA p₁).map Prod.fst = (v.parseBtpA p₂).map Prod.fst
  btpB : (v.parseBtpB p₁).map Prod.fst = (v.parseBtpB p₂).map Prod.fst

def SameBtpData (d₁ d₂ : Decoded Chunk Area) : Prop := d₁.context.btpData = d₂.context.btpData

theorem map_fst_cases {α β : Type} {o₁ o₂ : Option (α × β)}
    (h : o₁.map Prod.fst = o₂.map Prod.fst) :
    (o₁ = none ∧ o₂ = none) ∨ ∃ a b₁ b₂, o₁ = some (a,b₁) ∧ o₂ = some (a,b₂) := by
  cases o₁ with
  | none => exact .inl ⟨rfl,Option.map_eq_none_iff.mp h.symm⟩
  | some r₁ =>
    obtain ⟨r₂,h₂,hr⟩ := Option.map_eq_some_iff.mp h.symm
    exact .inr ⟨r₁.1,r₁.2,r₂.2,rfl,by rw [h₂,← hr]⟩

theorem btpDecode_related {ind₁ ind₂ : DataIndication Area} {p₁ p₂ : PacketVariant Chunk}
    {c₁ c₂ : DetectionContext Area} (hup : ind₁.upperProtocol = ind₂.upperProtocol)
    (hp : SameBtp v p₁ p₂) (hc : c₁.btpData = c₂.btpData) :
    Related SameBtpData (btpDecode v ind₁ ⟨t₁,p₁⟩ c₁) (btpDecode v ind₂ ⟨t₂,p₂⟩ c₂) := by
  unfold btpDecode parseBtpHeader
  rw [hup]
  cases ind₂.upperProtocol with
  | btpA =>
    rcases map_fst_cases hp.btpA with ⟨h₁,h₂⟩ | ⟨hdr,q₁,q₂,h₁,h₂⟩
    · simp only [h₁,h₂]; rfl
    · simp only [h₁,h₂]; rfl
  | btpB =>
    rcases map_fst_cases hp.btpB with ⟨h₁,h₂⟩ | ⟨hdr,q₁,q₂,h₁,h₂⟩
    · simp only [h₁,h₂]; rfl
    · simp only [h₁,h₂]; rfl
  | _ => exact hc

theorem decodeCommon_related {ctx₁ ctx₂ : IndicationContext Chunk}
    {b₁ b₂ : DetectionContext Area} (hcommon : v.parseCommon ctx₁ = v.parseCommon ctx₂)
    (hext : v.parseExtended ctx₁ = v.parseExtended ctx₂)
    (hp : SameBtp v (v.finish ctx₁) (v.finish ctx₂)) (hb : b₁.btpData = b₂.btpData) :
    Related SameBtpData (decodeCommon v t₁ ctx₁ b₁) (decodeCommon v t₂ ctx₂ b₂) := by
  unfold decodeCommon
  rw [hcommon]
  cases v.parseCommon ctx₂ with
  | none => exact hb
  | some common =>
    simp only [decodeExtended,hext]
    cases v.parseExtended ctx₂ common.headerType with
    | none => exact hb
    | some ext =>
      refine btpDecode_related v ?_ hp hb
      rw [(visitExtended_spec v common _ _ ext).1,(visitExtended_spec v common _ _ ext).1]

theorem inspectSignerInfo_related (msg : SecuredMessage Chunk Certificate)
    (data₁ data₂ : GeonetData Area) :
    Related (fun _ _ => True) (inspectSignerInfo v msg data₁) (inspectSignerInfo v msg data₂) := by
  unfold inspectSignerInfo
  cases msg.signerInfo with
  | none => trivial
  | some info =>
    cases info with
    | chain certs => cases h : certs.getLast? <;> simp [h,Related]
    | _ => trivial

theorem decodeBasic_related (ctx : IndicationContextBasic Chunk) {b₁ b₂ : DetectionContext Area}
    (hb : b₁.btpData = b₂.btpData) :
    Related SameBtpData (decodeBasic v t₁ ctx b₁) (decodeBasic v t₂ ctx b₂) := by
  unfold decodeBasic
  cases v.parseBasic ctx with
  | none => exact hb
  | some basic =>
    by_cases hsec : basic.nextHeader = .secured
    · simp only [if_pos hsec,decodeSecured]
      cases v.parseSecured ctx with
      | none => exact hb
      | some msg =>
        apply Related.bind (inspectSignerInfo_related v msg _ _)
        intro data₁ data₂ _ _ _
        exact decodeCommon_related v rfl rfl ⟨rfl,rfl⟩ hb
    · simp only [if_neg hsec]
      by_cases hcom : basic.nextHeader = .common
      · simp only [if_pos hcom]
        exact decodeCommon_related v rfl rfl ⟨rfl,rfl⟩ hb
      · simp only [if_neg hcom]
        exact hb

end

end Mitvane
