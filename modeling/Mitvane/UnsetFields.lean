import Mitvane.Pipeline
import Mitvane.Wire

/-! Header fields that a packet leaves unset are read from whatever the memory of the
detection context held. Which rules notice. -/
set_option autoImplicit false

namespace Mitvane
open PartialRun
variable {Chunk Certificate Area Fix : Type}

/-- The fields that the detector reads, where the packet sets them. -/
structure PacketFields where
  nextHeader : Option NextHeaderBasic
  headerType : Option HeaderType
  maximumHopLimit : Option UInt8
  sourcePosition : Option ShortPositionVector

def packetFields (v : Vanetza Chunk Certificate Area) (ctx : IndicationContextBasic Chunk) :
    PacketFields where
  nextHeader := (v.parseBasic ctx).map BasicHeader.nextHeader
  headerType := (reachedCommon v ctx).map CommonHeader.headerType
  maximumHopLimit := (reachedCommon v ctx).map CommonHeader.maximumHopLimit
  sourcePosition := (reachedExtended v ctx).bind ExtendedHeader.stored

/-- The fields of a packet over memory; only the position has a default. -/
def PacketFields.over (f : PacketFields) (memory : GeonetData Area) : GeonetData Area :=
  { memory with
    nextHeader := f.nextHeader.getD memory.nextHeader
    headerType := f.headerType.getD memory.headerType
    maximumHopLimit := f.maximumHopLimit.getD memory.maximumHopLimit
    sourcePosition := f.sourcePosition.getD .default }

theorem reported_over {v : Vanetza Chunk Certificate Area} {token : Token}
    {a : Arrival Area Fix} {d : Decoded Chunk Area} (h : decodeArrival v token a = .ok d)
    (isWithin : IsWithin Fix) (fix : Fix) (sig : Signature) :
    reported isWithin fix d.context.geonetData sig = reported isWithin fix
      ((packetFields v (received Chunk a)).over a.storage.context.geonetData) sig := by
  have l := decodeArrival_leaves h
  exact reported_congr ⟨l.headerType,l.maximumHopLimit,l.sourcePosition⟩ (fun _ => l.nextHeader)

inductive Settled (isWithin : IsWithin Fix) (fix : Fix) (f : PacketFields) :
    String → PatternType → Prop where
  | nh {text : String} {nh : NextHeaderBasic} : transformNh text = some nh →
      f.nextHeader = some nh → Settled isWithin fix f "nh" (.string text)
  | ht {text : String} {ht : UInt8} {h : HeaderType} : transformHt text = some ht →
      f.headerType = some h → ht >>> 4 = h.raw >>> 4 → Settled isWithin fix f "ht" (.string text)
  | mhl {n : Int} {m : UInt8} : f.maximumHopLimit = some m → n ≤ m.toNat →
      Settled isWithin fix f "mhl" (.int n)
  | anyMhl {n : Int} : n ≤ 0 → Settled isWithin fix f "mhl" (.int n)
  | allowedSoRange {range : GeonetAllowedSoRange} :
      isWithin (f.sourcePosition.getD .default).latitude
        (f.sourcePosition.getD .default).longitude fix range.distanceA = false →
      Settled isWithin fix f "allowed_so_range" (.allowedSoRange range)

/-- The pattern compares a field that the packet leaves unset. A hop limit of at most
0 or above 255 is decided without looking. -/
inductive ReadsUnset (f : PacketFields) : String → PatternType → Prop where
  | nh {text : String} {nh : NextHeaderBasic} : transformNh text = some nh →
      f.nextHeader = none → ReadsUnset f "nh" (.string text)
  | ht {text : String} {ht : UInt8} : transformHt text = some ht →
      f.headerType = none → ReadsUnset f "ht" (.string text)
  | mhl {n : Int} : 0 < n → n ≤ 255 → f.maximumHopLimit = none → ReadsUnset f "mhl" (.int n)

/-- No pattern of the signature fails on the packet, and one of them reads a field
that is unset. -/
def Sensitive (isWithin : IsWithin Fix) (fix : Fix) (f : PacketFields) (sig : Signature) : Prop :=
  (∃ key p, sig.patterns.lookup key = some p ∧ ReadsUnset f key p) ∧
  ∀ key p, sig.patterns.lookup key = some p → Settled isWithin fix f key p ∨ ReadsUnset f key p

section
variable {isWithin : IsWithin Fix} {fix : Fix} {f : PacketFields} {key : String} {p : PatternType}

theorem Settled.holds (h : Settled isWithin fix f key p) (memory : GeonetData Area) :
    Holds isWithin fix (f.over memory) key p := by
  cases h with
  | nh ht hf => exact .nh (by simp [PacketFields.over,ht,hf])
  | ht ht hf heq => exact .ht ht (by simp [PacketFields.over,hf,heq])
  | mhl hf hle => exact .mhl (by simpa [PacketFields.over,hf] using hle)
  | anyMhl hle =>
    refine .mhl (le_trans hle ?_)
    omega
  | allowedSoRange hw => exact .allowedSoRange hw

theorem Holds.settled_or_unset {memory : GeonetData Area}
    (h : Holds isWithin fix (f.over memory) key p) :
    Settled isWithin fix f key p ∨ ReadsUnset f key p := by
  cases h with
  | nh ht =>
    cases hf : f.nextHeader with
    | none => exact .inr (.nh ht hf)
    | some nh =>
      simp only [PacketFields.over,hf,Option.getD_some] at ht
      exact .inl (.nh ht hf)
  | ht ht heq =>
    cases hf : f.headerType with
    | none => exact .inr (.ht ht hf)
    | some h =>
      simp only [PacketFields.over,hf,Option.getD_some] at heq
      exact .inl (.ht ht hf heq)
  | @mhl n hle =>
    cases hf : f.maximumHopLimit with
    | none =>
      by_cases hn : n ≤ 0
      · exact .inl (.anyMhl hn)
      · have hlt := UInt8.toNat_lt (f.over memory).maximumHopLimit
        exact .inr (.mhl (by omega) (by omega) hf)
    | some m =>
      simp only [PacketFields.over,hf,Option.getD_some] at hle
      exact .inl (.mhl hf hle)
  | allowedSoRange hw => exact .inl (.allowedSoRange hw)

theorem transformNh_ne_any {text : String} {nh : NextHeaderBasic}
    (h : transformNh text = some nh) : nh ≠ .any := by
  unfold transformNh at h
  split at h
  · cases h; decide
  · split at h
    · cases h; decide
    · cases h

theorem transformHt_ne_zero {text : String} {ht : UInt8} (h : transformHt text = some ht) :
    ht >>> 4 ≠ 0 := by
  unfold transformHt at h
  split at h
  · cases h; decide
  · split at h
    · cases h; decide
    · split at h
      · cases h; decide
      · cases h

/-- On zeroed memory a pattern that reads it fails. -/
theorem ReadsUnset.fails_on_zero (h : ReadsUnset f key p) {memory : GeonetData Area}
    (hnh : memory.nextHeader = .any) (hht : memory.headerType = ⟨0⟩)
    (hmhl : memory.maximumHopLimit = 0) : ¬ Holds isWithin fix (f.over memory) key p := by
  intro hold
  cases h with
  | nh ht hf =>
    obtain ⟨text,hp,htext⟩ := holds_nh_iff.mp hold
    cases hp
    simp only [PacketFields.over,hf,Option.getD_none,hnh] at htext
    exact transformNh_ne_any htext rfl
  | ht ht hf =>
    obtain ⟨text,ht',hp,htext,heq⟩ := holds_ht_iff.mp hold
    cases hp
    simp only [PacketFields.over,hf,Option.getD_none,hht] at heq
    exact transformHt_ne_zero htext heq
  | mhl hpos hle hf =>
    obtain ⟨n,hp,hn⟩ := holds_mhl_iff.mp hold
    cases hp
    simp only [PacketFields.over,hf,Option.getD_none,hmhl] at hn
    have hzero : (0 : UInt8).toNat = 0 := rfl
    omega

def Signature.nhOrAny (sig : Signature) : NextHeaderBasic :=
  match sig.patterns.lookup "nh" with
  | some (.string text) => (transformNh text).getD .any
  | _ => .any

def Signature.htOrZero (sig : Signature) : HeaderType :=
  match sig.patterns.lookup "ht" with
  | some (.string text) => ⟨(transformHt text).getD 0⟩
  | _ => ⟨0⟩

theorem ReadsUnset.holds_on_matching {sig : Signature} (h : ReadsUnset f key p)
    (hp : sig.patterns.lookup key = some p) {memory : GeonetData Area}
    (hnh : memory.nextHeader = sig.nhOrAny) (hht : memory.headerType = sig.htOrZero)
    (hmhl : memory.maximumHopLimit = 255) : Holds isWithin fix (f.over memory) key p := by
  cases h with
  | nh ht hf => exact .nh (by simp [PacketFields.over,hf,hnh,Signature.nhOrAny,hp,ht])
  | ht ht hf => exact .ht ht (by simp [PacketFields.over,hf,hht,Signature.htOrZero,hp,ht])
  | mhl hpos hle hf =>
    have hmax : (255 : UInt8).toNat = 255 := rfl
    refine .mhl ?_
    simp only [PacketFields.over,hf,Option.getD_none,hmhl]
    omega

theorem reported_of_not_sensitive {sig : Signature} (h : ¬ Sensitive isWithin fix f sig)
    {m₁ m₂ : GeonetData Area} (hr : reported isWithin fix (f.over m₁) sig = true) :
    reported isWithin fix (f.over m₂) sig = true := by
  rw [reported_iff] at hr ⊢
  intro key p hp
  rcases (hr key p hp).settled_or_unset with hs | hu
  · exact hs.holds m₂
  · exact (h ⟨⟨key,p,hp,hu⟩,fun key p hp => (hr key p hp).settled_or_unset⟩).elim

theorem reported_eq_of_not_sensitive {sig : Signature} (h : ¬ Sensitive isWithin fix f sig)
    (m₁ m₂ : GeonetData Area) :
    reported isWithin fix (f.over m₁) sig = reported isWithin fix (f.over m₂) sig := by
  rw [Bool.eq_iff_iff]
  exact ⟨reported_of_not_sensitive h,reported_of_not_sensitive h⟩

end

theorem ReadsUnset.not_reached {v : Vanetza Chunk Certificate Area}
    {ctx : IndicationContextBasic Chunk} {key : String} {p : PatternType}
    (h : ReadsUnset (packetFields v ctx) key p) : reachedExtended v ctx = none := by
  have hcommon : (packetFields v ctx).headerType = none → reachedExtended v ctx = none := by
    intro hf
    have hc : reachedCommon v ctx = none := by simpa [packetFields] using hf
    unfold reachedCommon at hc
    unfold reachedExtended
    cases hctx : reachedContext v ctx with
    | none => rfl
    | some inner =>
      have hparse : v.parseCommon inner = none := by simpa [hctx] using hc
      simp [extendedIn,hparse]
  cases h with
  | nh _ hf =>
    have hb : v.parseBasic ctx = none := by simpa [packetFields] using hf
    simp [reachedExtended,reachedContext,hb]
  | ht _ hf => exact hcommon hf
  | mhl _ _ hf => exact hcommon (by simpa [packetFields] using hf)

def decodeThenDetect (v : Vanetza Chunk Certificate Area) (isWithin : IsWithin Fix)
    (token : Token) (signatures : SignaturesType) (a : Arrival Area Fix) :
    Except Fault (List Signature) := do
  let d ← decodeArrival v token a
  let (report,_) ← detect isWithin a.fix d.context.geonetData signatures
  pure report.sigs

section
variable {v : Vanetza Chunk Certificate Area} {isWithin : IsWithin Fix} {token : Token}
  {signatures : SignaturesType} {sigs : List Signature} {a : Arrival Area Fix}

theorem decodeThenDetect_ok {d : Decoded Chunk Area}
    (hm : signatures.lookup .geoNetworking = some sigs)
    (hd : decodeArrival v token a = .ok d) :
    decodeThenDetect v isWithin token signatures a =
      if sigs.any Signature.throws then .error .badGet
      else .ok (sigs.filter (reported isWithin a.fix
        ((packetFields v (received Chunk a)).over a.storage.context.geonetData))) := by
  have hrep := reported_over hd isWithin a.fix
  simp only [decodeThenDetect,hd,ok_bind,detect_of_lookup hm,
    List.filter_congr (fun sig _ => hrep sig)]
  split <;> rfl

theorem decodeThenDetect_error {e : Fault} (hd : decodeArrival v token a = .error e) :
    decodeThenDetect v isWithin token signatures a = .error e := by
  simp [decodeThenDetect,hd]

def Storage.matching (storage : Storage Area) (sig : Signature) : Storage Area :=
  { storage with context := { storage.context with
      geonetData := { storage.context.geonetData with
        nextHeader := sig.nhOrAny
        headerType := sig.htOrZero
        maximumHopLimit := 255 } } }

def Storage.zeroed (storage : Storage Area) : Storage Area :=
  { storage with context := { storage.context with
      geonetData := { storage.context.geonetData with
        nextHeader := .any
        headerType := ⟨0⟩
        maximumHopLimit := 0 } } }

theorem Sensitive.reported_matching {f : PacketFields} {fix : Fix} {sig : Signature}
    (h : Sensitive isWithin fix f sig) (storage : Storage Area) :
    reported isWithin fix (f.over (storage.matching sig).context.geonetData) sig = true := by
  rw [reported_iff]
  intro key p hp
  rcases h.2 key p hp with hs | hu
  · exact hs.holds _
  · exact hu.holds_on_matching hp rfl rfl rfl

theorem Sensitive.not_reported_zeroed {f : PacketFields} {fix : Fix} {sig : Signature}
    (h : Sensitive isWithin fix f sig) (storage : Storage Area) :
    reported isWithin fix (f.over storage.zeroed.context.geonetData) sig = false := by
  obtain ⟨key,p,hp,hu⟩ := h.1
  rw [← Bool.not_eq_true,reported_iff]
  intro hall
  exact hu.fails_on_zero rfl rfl rfl (hall key p hp)

theorem decodeThenDetect_differs {sig : Signature}
    (hm : signatures.lookup .geoNetworking = some sigs)
    (hchain : ¬ SignedByEmptyChain v (received Chunk a))
    (hthrow : sigs.any Signature.throws = false) (hsig : sig ∈ sigs)
    (hsens : Sensitive isWithin a.fix (packetFields v (received Chunk a)) sig) :
    decodeThenDetect v isWithin token signatures { a with storage := a.storage.matching sig } ≠
    decodeThenDetect v isWithin token signatures { a with storage := a.storage.zeroed } := by
  obtain ⟨key,p,_,hu⟩ := hsens.1
  cases hd : decodeArrival v token a with
  | error e =>
    rcases decodeBasic_error v token hd with ⟨_,hc⟩ | ⟨_,hr⟩
    · exact (hchain hc).elim
    · have hnone : reachedExtended v (received Chunk a) = none := hu.not_reached
      have hsome : (reachedExtended v (received Chunk a)).isSome := hr
      simp [hnone] at hsome
  | ok d =>
    obtain ⟨d₁,hd₁,_⟩ := (decodeArrival_related token token a (a.storage.matching sig)).of_ok hd
    obtain ⟨d₂,hd₂,_⟩ := (decodeArrival_related token token a a.storage.zeroed).of_ok hd
    rw [decodeThenDetect_ok hm hd₁,decodeThenDetect_ok hm hd₂,hthrow]
    intro heq
    have hlist := Except.ok.inj heq
    have hmem := List.mem_filter.mpr ⟨hsig,hsens.reported_matching a.storage⟩
    have hmem₂ := (List.mem_filter.mp (hlist ▸ hmem)).2
    have hfalse := hsens.not_reported_zeroed a.storage
    exact absurd hmem₂ (by rw [Bool.not_eq_true]; exact hfalse)

theorem decodeThenDetect_agrees (hm : signatures.lookup .geoNetworking = some sigs)
    (h : SignedByEmptyChain v (received Chunk a) ∨ sigs.any Signature.throws = true ∨
      ∀ sig ∈ sigs, ¬ Sensitive isWithin a.fix (packetFields v (received Chunk a)) sig)
    (storage : Storage Area) :
    decodeThenDetect v isWithin token signatures { a with storage } =
      decodeThenDetect v isWithin token signatures a := by
  have hrel := decodeArrival_related (v := v) token token a storage
  cases hd : decodeArrival v token a with
  | error e => rw [decodeThenDetect_error hd,decodeThenDetect_error (hrel.of_error hd)]
  | ok d =>
    obtain ⟨d',hd',_⟩ := hrel.of_ok hd
    rw [decodeThenDetect_ok hm hd,decodeThenDetect_ok hm hd']
    rcases h with hchain | hthrow | hsens
    · have herr := decodeBasic_emptyChain v token hchain a.storage.context.defaultInit
      have hok : decodeBasic v token (received Chunk a) a.storage.context.defaultInit = .ok d := hd
      rw [herr] at hok
      cases hok
    · rw [if_pos hthrow,if_pos hthrow]
    · have hfilter := List.filter_congr (fun sig hsig => reported_eq_of_not_sensitive
        (hsens sig hsig) storage.context.geonetData a.storage.context.geonetData)
      exact congrArg (fun l => if sigs.any Signature.throws then Except.error Fault.badGet
        else Except.ok l) hfilter

end

/-- The report does not depend on prior memory exactly when decoding breaks off at an
empty chain, a rule makes the detector throw, or no rule is sensitive to it. -/
theorem report_independent_iff (v : Vanetza Chunk Certificate Area) (isWithin : IsWithin Fix)
    (token : Token) (signatures : SignaturesType) (a : Arrival Area Fix)
    (hgn : Protocol.geoNetworking ∈ signatures) :
    (∀ storage₁ storage₂ : Storage Area,
      decodeThenDetect v isWithin token signatures { a with storage := storage₁ } =
      decodeThenDetect v isWithin token signatures { a with storage := storage₂ }) ↔
    (SignedByEmptyChain v (received Chunk a) ∨
      (signatures.of .geoNetworking).any Signature.throws = true ∨
      ∀ sig ∈ signatures.of .geoNetworking,
        ¬ Sensitive isWithin a.fix (packetFields v (received Chunk a)) sig) := by
  obtain ⟨sigs,hm⟩ := Finmap.mem_iff.mp hgn
  have hof : signatures.of .geoNetworking = sigs := by simp [SignaturesType.of,hm]
  rw [hof]
  constructor
  · intro h
    by_contra hcond
    simp only [not_or,not_forall,not_not] at hcond
    obtain ⟨hchain,hthrow,sig,hsig,hsens⟩ := hcond
    exact decodeThenDetect_differs hm hchain (Bool.not_eq_true _ ▸ hthrow) hsig hsens (h _ _)
  · intro h storage₁ storage₂
    rw [decodeThenDetect_agrees hm h storage₁,decodeThenDetect_agrees hm h storage₂]

def singleHopRule : Signature :=
  dropRule 2 ((∅ : StdMap String PatternType).insert "ht" (.string "SHB"))

def staleStorage : Storage WireArea :=
  { zeroStorage with context := { zeroStorage.context with
      geonetData := { zeroStorage.context.geonetData with headerType := .tsbSingleHop } } }

theorem report_independent_camArrival :
    Protocol.geoNetworking ∈ geonetRules [singleHopRule] ∧
    decodeThenDetect wire flatWithin 0 (geonetRules [singleHopRule])
      { camArrival with storage := staleStorage } =
    decodeThenDetect wire flatWithin 0 (geonetRules [singleHopRule])
      { camArrival with storage := zeroStorage } := by
  refine ⟨by decide,(report_independent_iff wire flatWithin 0 (geonetRules [singleHopRule])
    camArrival (by decide)).mpr (.inr (.inr ?_)) staleStorage zeroStorage⟩
  intro sig _ hsens
  obtain ⟨⟨key,p,_,hu⟩,_⟩ := hsens
  exact absurd hu.not_reached (by decide)

def badEnvelopeArrival : Arrival WireArea (Int × Int) :=
  broadcast (plainBytes 2 (9 :: List.replicate 55 0))

theorem leftover_headerType_decides :
    Protocol.geoNetworking ∈ geonetRules [singleHopRule] ∧
    decodeThenDetect wire flatWithin 0 (geonetRules [singleHopRule])
      { badEnvelopeArrival with storage := staleStorage } = .ok [singleHopRule] ∧
    decodeThenDetect wire flatWithin 0 (geonetRules [singleHopRule])
      { badEnvelopeArrival with storage := zeroStorage } = .ok [] :=
  ⟨by decide,rfl,rfl⟩

end Mitvane
