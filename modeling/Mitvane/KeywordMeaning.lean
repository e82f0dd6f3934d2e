import Mitvane.Vocabulary

/-! The keywords in the words of the rule documentation, against what the detector
decides on them. -/
set_option autoImplicit false

namespace Mitvane
open PartialRun
variable {Area Fix : Type}

def nextHeaderNames : List (PatternType × NextHeaderBasic) :=
  [(.string "common",.common),(.string "secure",.secured)]

/-- `GBC` stands for the bitwise or of the three GeoBroadcast codes. -/
def schemeCodes : List (PatternType × UInt8) :=
  [(.string "SHB",0x50),(.string "TSB",0x51),(.string "GBC",0x43)]

/-- The conjunction a signature stands for, keyword by keyword. -/
structure Matches (isWithin : IsWithin Fix) (fix : Fix) (data : GeonetData Area)
    (sig : Signature) : Prop where
  destinationArea : "destination_area" ∉ sig.patterns
  nh : ∀ p ∈ sig.patterns.lookup "nh", (p,data.nextHeader) ∈ nextHeaderNames
  ht : ∀ p ∈ sig.patterns.lookup "ht", ∃ entry ∈ schemeCodes,
    entry.1 = p ∧ entry.2 >>> 4 = data.headerType.raw >>> 4
  mhl : ∀ p ∈ sig.patterns.lookup "mhl", ∃ n ∈ p.getInt, n ≤ (data.maximumHopLimit.toNat : Int)
  allowedSoRange : ∀ p ∈ sig.patterns.lookup "allowed_so_range", ∃ range ∈ p.getAllowedSoRange,
    isWithin data.sourcePosition.latitude data.sourcePosition.longitude
      fix range.distanceA = false

instance (isWithin : IsWithin Fix) (fix : Fix) (data : GeonetData Area) (sig : Signature) :
    Decidable (Matches isWithin fix data sig) :=
  decidable_of_iff
    ("destination_area" ∉ sig.patterns ∧
      (∀ p ∈ sig.patterns.lookup "nh", (p,data.nextHeader) ∈ nextHeaderNames) ∧
      (∀ p ∈ sig.patterns.lookup "ht", ∃ entry ∈ schemeCodes,
        entry.1 = p ∧ entry.2 >>> 4 = data.headerType.raw >>> 4) ∧
      (∀ p ∈ sig.patterns.lookup "mhl", ∃ n ∈ p.getInt,
        n ≤ (data.maximumHopLimit.toNat : Int)) ∧
      ∀ p ∈ sig.patterns.lookup "allowed_so_range", ∃ range ∈ p.getAllowedSoRange,
        isWithin data.sourcePosition.latitude data.sourcePosition.longitude
          fix range.distanceA = false)
    ⟨fun h => ⟨h.1,h.2.1,h.2.2.1,h.2.2.2.1,h.2.2.2.2⟩,
      fun h => ⟨h.destinationArea,h.nh,h.ht,h.mhl,h.allowedSoRange⟩⟩

theorem transformNh_eq_some {text : String} {nh : NextHeaderBasic} :
    transformNh text = some nh ↔ (.string text,nh) ∈ nextHeaderNames := by
  unfold transformNh nextHeaderNames
  by_cases h₁ : text = "common"
  · subst h₁; simp [eq_comm]
  · by_cases h₂ : text = "secure"
    · subst h₂; simp [eq_comm]
    · simp [h₁,h₂]

theorem transformHt_eq_some {text : String} {code : UInt8} :
    transformHt text = some code ↔ (.string text,code) ∈ schemeCodes := by
  unfold transformHt schemeCodes
  by_cases h₁ : text = "TSB"
  · subst h₁; simp [HeaderType.tsbMultiHop,eq_comm]
  · by_cases h₂ : text = "SHB"
    · subst h₂; simp [HeaderType.tsbSingleHop,eq_comm]
    · by_cases h₃ : text = "GBC"
      · subst h₃
        have hor : HeaderType.geoBroadcastCircle.raw ||| HeaderType.geoBroadcastRect.raw |||
            HeaderType.geoBroadcastElip.raw = 0x43 := by decide
        simp [hor,eq_comm]
      · simp [h₁,h₂,h₃]

theorem inVocabulary_key {key : String} {p : PatternType} (h : InVocabulary key p) :
    key ∈ conditionKeywords := by
  cases h <;> decide

section
variable {isWithin : IsWithin Fix} {fix : Fix} {data : GeonetData Area} {sig : Signature}

theorem AllHold.matches (h : AllHold isWithin fix data sig) : Matches isWithin fix data sig where
  destinationArea := by
    intro hmem
    obtain ⟨p,hp⟩ := Finmap.mem_iff.mp hmem
    have hcounted := (h _ p hp).mem_countedKeywords
    simp [countedKeywords] at hcounted
  nh := by
    intro p hp
    obtain ⟨text,rfl,ht⟩ := holds_nh_iff.mp (h _ p hp)
    exact transformNh_eq_some.mp ht
  ht := by
    intro p hp
    obtain ⟨text,code,rfl,ht,hcode⟩ := holds_ht_iff.mp (h _ p hp)
    exact ⟨_,transformHt_eq_some.mp ht,rfl,hcode⟩
  mhl := by
    intro p hp
    obtain ⟨n,rfl,hn⟩ := holds_mhl_iff.mp (h _ p hp)
    exact ⟨n,rfl,hn⟩
  allowedSoRange := by
    intro p hp
    obtain ⟨range,rfl,hw⟩ := holds_allowedSoRange_iff.mp (h _ p hp)
    exact ⟨range,rfl,hw⟩

theorem Matches.allHold (h : Matches isWithin fix data sig) (hc : Conforms sig) :
    AllHold isWithin fix data sig := by
  intro key p hp
  have hv := hc key p hp
  have hkey := inVocabulary_key hv
  simp only [conditionKeywords,List.mem_cons,List.not_mem_nil,or_false] at hkey
  rcases hkey with rfl | rfl | rfl | rfl | rfl
  · obtain ⟨text,nh,rfl,_⟩ := inVocabulary_nh hv
    exact holds_nh_iff.mpr ⟨text,rfl,transformNh_eq_some.mpr (h.nh _ hp)⟩
  · obtain ⟨text,ht,rfl,_⟩ := inVocabulary_ht hv
    obtain ⟨⟨q,code⟩,hmem,hq,hcode⟩ := h.ht _ hp
    simp only at hq hcode
    subst hq
    exact holds_ht_iff.mpr ⟨text,code,rfl,transformHt_eq_some.mpr hmem,hcode⟩
  · obtain ⟨n,rfl⟩ := inVocabulary_mhl hv
    obtain ⟨m,hm,hle⟩ := h.mhl _ hp
    cases hm
    exact holds_mhl_iff.mpr ⟨n,rfl,hle⟩
  · exact absurd (Finmap.mem_of_lookup_eq_some hp) h.destinationArea
  · obtain ⟨range,rfl,_⟩ := inVocabulary_allowedSoRange hv
    obtain ⟨range',hr,hw⟩ := h.allowedSoRange _ hp
    cases hr
    exact holds_allowedSoRange_iff.mpr ⟨range,rfl,hw⟩

theorem reported_eq_matches (hc : Conforms sig) :
    reported isWithin fix data sig = decide (Matches isWithin fix data sig) := by
  rw [Bool.eq_iff_iff,reported_iff,decide_eq_true_iff]
  exact ⟨fun h => h.matches,fun h => h.allHold hc⟩

end

/-- On loaded rules the detector returns the reported signatures of the list. -/
theorem Produced.detect_eq_filter {y : Conversions} {m : SignaturesType} (hm : Produced y m)
    (isWithin : IsWithin Fix) (fix : Fix) (data : GeonetData Area) :
    ∃ report m', detect isWithin fix data m = .ok (report,m') ∧
      report.sigs = (m.of .geoNetworking).filter (reported isWithin fix data) := by
  have hany : (m.of .geoNetworking).any Signature.throws = false := by
    rw [List.any_eq_false]
    intro sig hsig
    simp [(hm.conforms sig hsig).throws_eq_false]
  exact ⟨_,_,by rw [detect_eq,hany]; rfl,rfl⟩

/-- Detection is the filter by the conjunction of the stored patterns. -/
theorem detect_reports_matching (y : Conversions) (m : SignaturesType) (hm : Produced y m)
    (isWithin : IsWithin Fix) (fix : Fix) (data : GeonetData Area) :
    ∃ report m', detect isWithin fix data m = .ok (report,m') ∧
      report.sigs = (m.of .geoNetworking).filter (fun sig => Matches isWithin fix data sig) := by
  obtain ⟨report,m',hdetect,hsigs⟩ := hm.detect_eq_filter isWithin fix data
  refine ⟨report,m',hdetect,?_⟩
  rw [hsigs]
  apply List.filter_congr
  intro sig hsig
  exact reported_eq_matches (hm.conforms sig hsig)

def broadcastData : GeonetData Unit where
  protocolVersion := 1
  nextHeader := .common
  headerType := .geoBroadcastCircle
  destination := none
  sourcePosition := .default
  securityInfo := .noSecurity
  certificateId := none
  payloadType := none
  secureProtocolVersion := none
  signerInfoType := none
  chainSize := none
  remainingPacketLifetime := 0
  maximumHopLimit := 10
  remainingHopLimit := 10

theorem detect_reports_largeHopLimit :
    Produced decimalConversions loadedOnce ∧
    ∃ report m', detect (fun _ _ _ _ => true) () broadcastData loadedOnce = .ok (report,m') ∧
      report.sigs = [largeHopLimitSignature] := by
  refine ⟨produced_loadedOnce,?_⟩
  obtain ⟨report,m',hdetect,hsigs⟩ := detect_reports_matching decimalConversions loadedOnce
    produced_loadedOnce (fun _ _ _ _ => true) () broadcastData
  exact ⟨report,m',hdetect,by rw [hsigs]; rfl⟩

def OthersHold (isWithin : IsWithin Fix) (fix : Fix) (data : GeonetData Area) (key : String)
    (sig : Signature) : Prop :=
  ∀ k p, k ≠ key → sig.patterns.lookup k = some p → Holds isWithin fix data k p

theorem allHold_iff_others {isWithin : IsWithin Fix} {fix : Fix} {data : GeonetData Area}
    {sig : Signature} {key : String} {p : PatternType} (hp : sig.patterns.lookup key = some p) :
    AllHold isWithin fix data sig ↔
      Holds isWithin fix data key p ∧ OthersHold isWithin fix data key sig := by
  constructor
  · intro h
    exact ⟨h key p hp,fun k q _ hq => h k q hq⟩
  · intro h k q hq
    by_cases hk : k = key
    · subst k
      rw [hp] at hq
      exact Option.some.inj hq ▸ h.1
    · exact h.2 k q hk hq

theorem mem_filter_reported_iff {isWithin : IsWithin Fix} {fix : Fix} {data : GeonetData Area}
    {sigs : List Signature} {sig : Signature} {key : String} {p : PatternType}
    (hp : sig.patterns.lookup key = some p) :
    sig ∈ sigs.filter (reported isWithin fix data) ↔
      sig ∈ sigs ∧ Holds isWithin fix data key p ∧ OthersHold isWithin fix data key sig := by
  rw [List.mem_filter,reported_iff,allHold_iff_others hp]

def NamesOwnScheme (p : PatternType) (ht : HeaderType) : Prop :=
  (p = .string "SHB" ∧ ht = .tsbSingleHop) ∨ (p = .string "TSB" ∧ ht = .tsbMultiHop) ∨
  (p = .string "GBC" ∧
    ht ∈ [HeaderType.geoBroadcastCircle,HeaderType.geoBroadcastRect,HeaderType.geoBroadcastElip])

def SharesUpperBits (p : PatternType) (ht : HeaderType) : Prop :=
  (p = .string "SHB" ∧ 0x51 ≤ ht.raw ∧ ht.raw ≤ 0x5f) ∨
  (p = .string "TSB" ∧ 0x50 ≤ ht.raw ∧ ht.raw ≤ 0x5f ∧ ht.raw ≠ 0x51) ∨
  (p = .string "GBC" ∧ 0x43 ≤ ht.raw ∧ ht.raw ≤ 0x4f)

/-- What the documentation promises of `ht` on the reported signatures of one packet. -/
structure SchemesApart (sigs : List Signature) (ht : HeaderType) : Prop where
  own : ∀ sig ∈ sigs, ∀ p, sig.patterns.lookup "ht" = some p → NamesOwnScheme p ht
  alike : ∀ sig₁ ∈ sigs, ∀ sig₂ ∈ sigs, ∀ p₁ p₂, sig₁.patterns.lookup "ht" = some p₁ →
    sig₂.patterns.lookup "ht" = some p₂ → p₁ = p₂

theorem NamesOwnScheme.unique {p₁ p₂ : PatternType} {ht : HeaderType}
    (h₁ : NamesOwnScheme p₁ ht) (h₂ : NamesOwnScheme p₂ ht) : p₁ = p₂ := by
  rcases h₁ with ⟨rfl,rfl⟩ | ⟨rfl,rfl⟩ | ⟨rfl,hmem⟩
  · rcases h₂ with ⟨rfl,_⟩ | ⟨_,h⟩ | ⟨_,h⟩
    · rfl
    · exact absurd h (by decide)
    · exact absurd h (by decide)
  · rcases h₂ with ⟨_,h⟩ | ⟨rfl,_⟩ | ⟨_,h⟩
    · exact absurd h (by decide)
    · rfl
    · exact absurd h (by decide)
  · rcases h₂ with ⟨_,rfl⟩ | ⟨_,rfl⟩ | ⟨rfl,_⟩
    · exact absurd hmem (by decide)
    · exact absurd hmem (by decide)
    · rfl

theorem upperBits_eq_iff (a b : UInt8) : a >>> 4 = b >>> 4 ↔ a.toNat / 16 = b.toNat / 16 := by
  rw [← UInt8.toNat_inj,UInt8.toNat_shiftRight,UInt8.toNat_shiftRight,Nat.shiftRight_eq_div_pow,
    Nat.shiftRight_eq_div_pow]
  rfl

theorem headerType_eq_iff (a b : HeaderType) : a = b ↔ a.raw.toNat = b.raw.toNat := by
  rw [UInt8.toNat_inj]
  cases a
  cases b
  simp

theorem sharesUpperBits_not_own {p : PatternType} {ht : HeaderType}
    (h : SharesUpperBits p ht) : ¬ NamesOwnScheme p ht := by
  intro hown
  rcases hown with ⟨rfl,rfl⟩ | ⟨rfl,rfl⟩ | ⟨rfl,hmem⟩
  · simp [SharesUpperBits,HeaderType.tsbSingleHop] at h
  · simp [SharesUpperBits,HeaderType.tsbMultiHop] at h
  · simp only [List.mem_cons,List.not_mem_nil,or_false] at hmem
    rcases hmem with rfl | rfl | rfl
    · simp [SharesUpperBits,HeaderType.geoBroadcastCircle] at h
    · simp [SharesUpperBits,HeaderType.geoBroadcastRect] at h
    · simp [SharesUpperBits,HeaderType.geoBroadcastElip] at h

theorem holds_ht_iff_own_or_shared {isWithin : IsWithin Fix} {fix : Fix}
    {data : GeonetData Area} {p : PatternType} (hv : InVocabulary "ht" p) :
    Holds isWithin fix data "ht" p ↔
      NamesOwnScheme p data.headerType ∨ SharesUpperBits p data.headerType := by
  have hcode : ∀ {text : String} {code : UInt8}, transformHt text = some code →
      (Holds isWithin fix data "ht" (.string text) ↔
        code.toNat / 16 = data.headerType.raw.toNat / 16) := by
    intro text code ht
    rw [← upperBits_eq_iff,holds_ht_iff]
    constructor
    · intro ⟨text',code',htext,ht',heq⟩
      cases htext
      rw [ht] at ht'
      cases ht'
      exact heq
    · intro heq
      exact ⟨text,code,rfl,ht,heq⟩
  have hbound := data.headerType.raw.toNat_lt
  generalize hk : "ht" = key at hv
  cases hv with
  | @ht text hmem =>
    simp only [List.mem_cons,List.not_mem_nil,or_false] at hmem
    rcases hmem with rfl | rfl | rfl
    · rw [@hcode "TSB" 0x51 rfl]
      simp only [NamesOwnScheme,SharesUpperBits,PatternType.string.injEq,String.reduceEq,
        headerType_eq_iff,HeaderType.tsbMultiHop,UInt8.le_iff_toNat_le,← UInt8.toNat_inj,
        UInt8.reduceToNat,ne_eq,false_and,true_and,false_or,or_false]
      omega
    · rw [@hcode "GBC" 0x43 rfl]
      simp only [NamesOwnScheme,SharesUpperBits,PatternType.string.injEq,String.reduceEq,
        headerType_eq_iff,HeaderType.geoBroadcastCircle,HeaderType.geoBroadcastRect,
        HeaderType.geoBroadcastElip,List.mem_cons,List.not_mem_nil,UInt8.le_iff_toNat_le,
        UInt8.reduceToNat,false_and,true_and,false_or,or_false]
      omega
    · rw [@hcode "SHB" 0x50 rfl]
      simp only [NamesOwnScheme,SharesUpperBits,PatternType.string.injEq,String.reduceEq,
        headerType_eq_iff,HeaderType.tsbSingleHop,UInt8.le_iff_toNat_le,UInt8.reduceToNat,
        false_and,true_and,or_false]
      omega
  | _ => simp at hk

/-- The schemes are told apart exactly on packets whose header type no rule takes for
a sibling of its own scheme, rules with another failing pattern aside. -/
theorem ht_tells_schemes_apart_iff (y : Conversions) (m : SignaturesType) (hm : Produced y m)
    (isWithin : IsWithin Fix) (fix : Fix) (data : GeonetData Area) :
    ∃ report m', detect isWithin fix data m = .ok (report,m') ∧
      (SchemesApart report.sigs data.headerType ↔
        ∀ sig ∈ m.of .geoNetworking, ∀ p, sig.patterns.lookup "ht" = some p →
          OthersHold isWithin fix data "ht" sig → ¬ SharesUpperBits p data.headerType) := by
  obtain ⟨report,m',hdetect,hsigs⟩ := hm.detect_eq_filter isWithin fix data
  refine ⟨report,m',hdetect,?_⟩
  constructor
  · intro h sig hsig p hp hothers hshared
    have hholds : Holds isWithin fix data "ht" p :=
      (holds_ht_iff_own_or_shared (hm.conforms sig hsig "ht" p hp)).mpr (.inr hshared)
    have hmem : sig ∈ report.sigs := by
      rw [hsigs,mem_filter_reported_iff hp]
      exact ⟨hsig,hholds,hothers⟩
    exact sharesUpperBits_not_own hshared (h.own sig hmem p hp)
  · intro h
    have hown : ∀ sig ∈ report.sigs, ∀ p, sig.patterns.lookup "ht" = some p →
        NamesOwnScheme p data.headerType := by
      intro sig hmem p hp
      rw [hsigs,mem_filter_reported_iff hp] at hmem
      obtain ⟨hsig,hholds,hothers⟩ := hmem
      rcases (holds_ht_iff_own_or_shared (hm.conforms sig hsig "ht" p hp)).mp hholds with
        hown | hshared
      · exact hown
      · exact absurd hshared (h sig hsig p hp hothers)
    refine ⟨hown,?_⟩
    intro sig₁ h₁ sig₂ h₂ p₁ p₂ hp₁ hp₂
    exact (hown sig₁ h₁ p₁ hp₁).unique (hown sig₂ h₂ p₂ hp₂)

def multiHopRule : Node := Node.ofFields
  [("action",.scalar "drop"),("protocol",.scalar "GeoNetworking"),
   ("meta",Node.ofFields [("msg",.scalar "TSB is detected."),
     ("sid",.scalar "7"),("rev",.scalar "1")]),
   ("ht",.scalar "TSB")]

def multiHopSignature : Signature where
  action := .drop
  protocol := .geoNetworking
  metaData := ⟨"TSB is detected.",7,1⟩
  patterns := (∅ : StdMap String PatternType).insert "ht" (.string "TSB")

def multiHopRules : SignaturesType := appendSignature ∅ .geoNetworking multiHopSignature

theorem produced_multiHopRules : Produced decimalConversions multiHopRules :=
  @Produced.read decimalConversions (ruleDocument [multiHopRule]) ∅ multiHopRules .success
    .empty rfl

def singleHopData : GeonetData Unit :=
  { broadcastData with headerType := .tsbSingleHop, maximumHopLimit := 1 }

theorem ht_tells_schemes_apart_broadcast :
    ∃ report m', detect (fun _ _ _ _ => true) () broadcastData loadedOnce = .ok (report,m') ∧
      SchemesApart report.sigs .geoBroadcastCircle := by
  obtain ⟨report,m',hdetect,hiff⟩ := ht_tells_schemes_apart_iff decimalConversions loadedOnce
    produced_loadedOnce (fun _ _ _ _ => true) () broadcastData
  refine ⟨report,m',hdetect,hiff.mpr ?_⟩
  intro sig hsig p hp _ hshared
  have hs : sig = largeHopLimitSignature := List.mem_singleton.mp hsig
  subst hs
  have hgbc : p = .string "GBC" := (Option.some.inj hp).symm
  subst hgbc
  simp [SharesUpperBits,broadcastData,HeaderType.geoBroadcastCircle] at hshared

theorem multiHop_rule_reports_singleHop :
    Produced decimalConversions multiHopRules ∧
    ∃ report m', detect (fun _ _ _ _ => true) () singleHopData multiHopRules = .ok (report,m') ∧
      ¬ SchemesApart report.sigs singleHopData.headerType := by
  refine ⟨produced_multiHopRules,⟨[multiHopSignature],0⟩,multiHopRules,rfl,?_⟩
  intro h
  have hown := h.own multiHopSignature (List.mem_singleton.mpr rfl) (.string "TSB") rfl
  simp [NamesOwnScheme,singleHopData,HeaderType.tsbSingleHop,HeaderType.tsbMultiHop] at hown

def IsTsbOrGbc (ht : HeaderType) : Prop :=
  ht ∈ [HeaderType.tsbSingleHop,HeaderType.tsbMultiHop,HeaderType.geoBroadcastCircle,
    HeaderType.geoBroadcastRect,HeaderType.geoBroadcastElip]

instance (ht : HeaderType) : Decidable (IsTsbOrGbc ht) := inferInstanceAs (Decidable (_ ∈ _))

/-- What the documentation promises of a rule with `mhl` equal to `n`. -/
structure MhlAsDocumented (isWithin : IsWithin Fix) (fix : Fix) (data : GeonetData Area)
    (sig : Signature) (n : Int) (sigs : List Signature) : Prop where
  sound : sig ∈ sigs → IsTsbOrGbc data.headerType ∧ n < data.maximumHopLimit.toNat
  complete : IsTsbOrGbc data.headerType → n < data.maximumHopLimit.toNat →
    OthersHold isWithin fix data "mhl" sig → sig ∈ sigs

/-- The keyword means what is documented unless the other patterns hold and the hop
limit is `n` itself, or larger on a packet of another type. -/
theorem mhl_as_documented_iff (y : Conversions) (m : SignaturesType) (hm : Produced y m)
    (sig : Signature) (hsig : sig ∈ m.of .geoNetworking) (n : Int)
    (hmhl : sig.patterns.lookup "mhl" = some (.int n)) (isWithin : IsWithin Fix) (fix : Fix)
    (data : GeonetData Area) :
    ∃ report m', detect isWithin fix data m = .ok (report,m') ∧
      (MhlAsDocumented isWithin fix data sig n report.sigs ↔
        (OthersHold isWithin fix data "mhl" sig → n ≤ data.maximumHopLimit.toNat →
          IsTsbOrGbc data.headerType ∧ n ≠ data.maximumHopLimit.toNat)) := by
  obtain ⟨report,m',hdetect,hsigs⟩ := hm.detect_eq_filter isWithin fix data
  refine ⟨report,m',hdetect,?_⟩
  have hmem : sig ∈ report.sigs ↔
      n ≤ data.maximumHopLimit.toNat ∧ OthersHold isWithin fix data "mhl" sig := by
    rw [hsigs,mem_filter_reported_iff hmhl,holds_mhl_iff]
    constructor
    · intro ⟨_,⟨k,hk,hle⟩,hothers⟩
      cases hk
      exact ⟨hle,hothers⟩
    · intro ⟨hle,hothers⟩
      exact ⟨hsig,⟨n,rfl,hle⟩,hothers⟩
  constructor
  · intro h hothers hle
    obtain ⟨htype,hlt⟩ := h.sound (hmem.mpr ⟨hle,hothers⟩)
    exact ⟨htype,by omega⟩
  · intro h
    constructor
    · intro hreported
      obtain ⟨hle,hothers⟩ := hmem.mp hreported
      obtain ⟨htype,hne⟩ := h hothers hle
      exact ⟨htype,by omega⟩
    · intro _ hlt hothers
      exact hmem.mpr ⟨by omega,hothers⟩

theorem mhl_as_documented_broadcast :
    ∃ report m', detect (fun _ _ _ _ => true) () broadcastData loadedOnce = .ok (report,m') ∧
      MhlAsDocumented (fun _ _ _ _ => true) () broadcastData largeHopLimitSignature 3
        report.sigs := by
  obtain ⟨report,m',hdetect,hiff⟩ := mhl_as_documented_iff decimalConversions loadedOnce
    produced_loadedOnce largeHopLimitSignature (List.mem_singleton.mpr rfl) 3 rfl
    (fun _ _ _ _ => true) () broadcastData
  exact ⟨report,m',hdetect,hiff.mpr (fun _ _ => by decide)⟩

theorem mhl_reports_equal_hop_limit :
    Produced decimalConversions loadedOnce ∧
    ∃ report m', detect (fun _ _ _ _ => true) () { broadcastData with maximumHopLimit := 3 }
        loadedOnce = .ok (report,m') ∧
      ¬ MhlAsDocumented (fun _ _ _ _ => true) () { broadcastData with maximumHopLimit := 3 }
        largeHopLimitSignature 3 report.sigs := by
  refine ⟨produced_loadedOnce,⟨[largeHopLimitSignature],0⟩,loadedOnce,rfl,?_⟩
  intro h
  have hlt := (h.sound (List.mem_singleton.mpr rfl)).2
  exact absurd hlt (by decide)

end Mitvane
