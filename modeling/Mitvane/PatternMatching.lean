import Mathlib.Algebra.BigOperators.Group.Finset.Piecewise
import Mitvane.GeonetDetector

/-! The meaning of a signature: the conjunction of its patterns. The counter in the
detector decides it. -/
set_option autoImplicit false

namespace Mitvane
open PartialRun
variable {Area Fix : Type}

/-- A pattern holds of the data of a packet. No constructor for `destination_area`:
the detector never counts it. -/
inductive Holds (isWithin : IsWithin Fix) (fix : Fix) (data : GeonetData Area) :
    String → PatternType → Prop where
  | nh {text : String} : transformNh text = some data.nextHeader →
      Holds isWithin fix data "nh" (.string text)
  | ht {text : String} {ht : UInt8} : transformHt text = some ht →
      ht >>> 4 = data.headerType.raw >>> 4 → Holds isWithin fix data "ht" (.string text)
  | mhl {n : Int} : n ≤ data.maximumHopLimit.toNat → Holds isWithin fix data "mhl" (.int n)
  | allowedSoRange {range : GeonetAllowedSoRange} :
      isWithin data.sourcePosition.latitude data.sourcePosition.longitude
        fix range.distanceA = false →
      Holds isWithin fix data "allowed_so_range" (.allowedSoRange range)

section Inversion
variable {isWithin : IsWithin Fix} {fix : Fix} {data : GeonetData Area} {p : PatternType}

theorem holds_nh_iff : Holds isWithin fix data "nh" p ↔
    ∃ text, p = .string text ∧ transformNh text = some data.nextHeader := by
  constructor
  · generalize hk : "nh" = key
    intro h
    cases h with
    | nh ht => exact ⟨_,rfl,ht⟩
    | _ => simp at hk
  · intro hcase
    obtain ⟨text,rfl,ht⟩ := hcase
    exact .nh ht

theorem holds_ht_iff : Holds isWithin fix data "ht" p ↔
    ∃ text ht, p = .string text ∧ transformHt text = some ht ∧
      ht >>> 4 = data.headerType.raw >>> 4 := by
  constructor
  · generalize hk : "ht" = key
    intro h
    cases h with
    | ht ht heq => exact ⟨_,_,rfl,ht,heq⟩
    | _ => simp at hk
  · intro hcase
    obtain ⟨text,ht,rfl,htr,heq⟩ := hcase
    exact .ht htr heq

theorem holds_mhl_iff : Holds isWithin fix data "mhl" p ↔
    ∃ n, p = .int n ∧ n ≤ data.maximumHopLimit.toNat := by
  constructor
  · generalize hk : "mhl" = key
    intro h
    cases h with
    | mhl hle => exact ⟨_,rfl,hle⟩
    | _ => simp at hk
  · intro hcase
    obtain ⟨n,rfl,hle⟩ := hcase
    exact .mhl hle

theorem holds_allowedSoRange_iff : Holds isWithin fix data "allowed_so_range" p ↔
    ∃ range, p = .allowedSoRange range ∧
      isWithin data.sourcePosition.latitude data.sourcePosition.longitude
        fix range.distanceA = false := by
  constructor
  · generalize hk : "allowed_so_range" = key
    intro h
    cases h with
    | allowedSoRange hw => exact ⟨_,rfl,hw⟩
    | _ => simp at hk
  · intro hcase
    obtain ⟨range,rfl,hw⟩ := hcase
    exact .allowedSoRange hw

end Inversion

def countedKeywords : Finset String := {"nh","ht","mhl","allowed_so_range"}

theorem Holds.mem_countedKeywords {isWithin : IsWithin Fix} {fix : Fix} {data : GeonetData Area}
    {key : String} {p : PatternType} (h : Holds isWithin fix data key p) :
    key ∈ countedKeywords := by
  cases h <;> decide

def AllHold (isWithin : IsWithin Fix) (fix : Fix) (data : GeonetData Area)
    (sig : Signature) : Prop :=
  ∀ key p, sig.patterns.lookup key = some p → Holds isWithin fix data key p

/-- One component of the counter against the patterns stored under its keyword. -/
structure Counted (isWithin : IsWithin Fix) (fix : Fix) (data : GeonetData Area)
    (sig : Signature) (key : String) {α : Type} (read : Except Stop (Option α))
    (test : α → Bool) : Prop where
  le : ∀ w, read = .ok w → countIf test w ≤ if key ∈ sig.patterns then 1 else 0
  holds : ∀ w, read = .ok w → countIf test w = (if key ∈ sig.patterns then 1 else 0) →
    ∀ p, sig.patterns.lookup key = some p → Holds isWithin fix data key p
  counts : (∀ p, sig.patterns.lookup key = some p → Holds isWithin fix data key p) →
    ∃ w, read = .ok w ∧ countIf test w = if key ∈ sig.patterns then 1 else 0

theorem counted_patternUnder {isWithin : IsWithin Fix} {fix : Fix} {data : GeonetData Area}
    {sig : Signature} {key : String} {α β : Type} {get : PatternType → Option α}
    {transform : α → Except Stop β} {test : β → Bool}
    (h : ∀ p, Holds isWithin fix data key p ↔
      ∃ a b, get p = some a ∧ transform a = .ok b ∧ test b = true) :
    Counted isWithin fix data sig key (patternUnder key get transform sig) test := by
  unfold patternUnder
  cases hl : sig.patterns.lookup key with
  | none =>
    have hmem : key ∉ sig.patterns := Finmap.lookup_eq_none.mp hl
    refine ⟨?_,?_,?_⟩
    · intro w hw
      cases hw
      simp [countIf]
    · intro w _ _ p hp
      rw [hl] at hp
      cases hp
    · exact fun _ => ⟨none,rfl,by simp [countIf,hmem]⟩
  | some p =>
    have hmem : key ∈ sig.patterns := Finmap.mem_of_lookup_eq_some hl
    refine ⟨?_,?_,?_⟩
    · intro w _
      cases w with
      | none => simp [countIf]
      | some b => cases hb : test b <;> simp [countIf,hb,hmem]
    · intro w hw hc q hq
      rw [hl] at hq
      cases hq
      cases hget : get p with
      | none => simp [hget] at hw
      | some a =>
        cases htr : transform a with
        | error e => simp [hget,htr] at hw
        | ok b =>
          simp only [hget,htr] at hw
          cases hw
          cases htest : test b with
          | false => simp [countIf,htest,hmem] at hc
          | true => exact (h p).mpr ⟨a,b,hget,htr,htest⟩
    · intro hall
      obtain ⟨a,b,hget,htr,htest⟩ := (h p).mp (hall p hl)
      exact ⟨some b,by simp [hget,htr],by simp [countIf,htest,hmem]⟩

theorem orSkip_eq_ok {β : Type} {message : String} {o : Option β} {b : β} :
    orSkip message o = .ok b ↔ o = some b := by
  cases o <;> simp [orSkip]

section
variable (isWithin : IsWithin Fix) (fix : Fix) (data : GeonetData Area) (sig : Signature)

theorem counted_nh : Counted isWithin fix data sig "nh" sig.nh
    (fun nh => nh = data.nextHeader) := by
  apply counted_patternUnder
  intro p
  rw [holds_nh_iff]
  constructor
  · intro hcase
    obtain ⟨text,rfl,ht⟩ := hcase
    exact ⟨text,data.nextHeader,rfl,orSkip_eq_ok.mpr ht,by simp⟩
  · intro hcase
    obtain ⟨text,nh,hget,htr,htest⟩ := hcase
    cases p <;> simp [PatternType.getString] at hget
    subst hget
    rw [orSkip_eq_ok] at htr
    exact ⟨_,rfl,by simpa [htr] using htest⟩

theorem counted_ht : Counted isWithin fix data sig "ht" sig.ht
    (fun ht : UInt8 => ht >>> 4 = data.headerType.raw >>> 4) := by
  apply counted_patternUnder
  intro p
  rw [holds_ht_iff]
  constructor
  · intro hcase
    obtain ⟨text,ht,rfl,htr,heq⟩ := hcase
    exact ⟨text,ht,rfl,orSkip_eq_ok.mpr htr,by simpa using heq⟩
  · intro hcase
    obtain ⟨text,ht,hget,htr,htest⟩ := hcase
    cases p <;> simp [PatternType.getString] at hget
    subst hget
    rw [orSkip_eq_ok] at htr
    exact ⟨_,ht,rfl,htr,by simpa using htest⟩

theorem counted_mhl : Counted isWithin fix data sig "mhl" sig.mhl
    (fun mhl : Int => mhl ≤ data.maximumHopLimit.toNat) := by
  apply counted_patternUnder
  intro p
  rw [holds_mhl_iff]
  constructor
  · intro hcase
    obtain ⟨n,rfl,hle⟩ := hcase
    exact ⟨n,n,rfl,rfl,by simpa using hle⟩
  · intro hcase
    obtain ⟨n,m,hget,htr,htest⟩ := hcase
    cases p <;> simp [PatternType.getInt] at hget
    subst hget
    cases htr
    exact ⟨_,rfl,by simpa using htest⟩

theorem counted_allowedSoRange : Counted isWithin fix data sig "allowed_so_range"
    sig.allowedSoRange (fun range => !isWithin data.sourcePosition.latitude
      data.sourcePosition.longitude fix range.distanceA) := by
  apply counted_patternUnder
  intro p
  rw [holds_allowedSoRange_iff]
  constructor
  · intro hcase
    obtain ⟨range,rfl,hw⟩ := hcase
    have hs : range.shape = .circle := by cases range.shape; rfl
    exact ⟨range,range,rfl,orSkip_eq_ok.mpr (if_pos hs),by simpa using hw⟩
  · intro hcase
    obtain ⟨range,range',hget,htr,htest⟩ := hcase
    cases p <;> simp [PatternType.getAllowedSoRange] at hget
    subst hget
    rw [orSkip_eq_ok] at htr
    split at htr
    · cases htr
      exact ⟨_,rfl,by simpa using htest⟩
    · cases htr

theorem card_countedKeywords (m : StdMap String PatternType) :
    (countedKeywords.filter (· ∈ m)).card =
      (if "nh" ∈ m then 1 else 0) + (if "ht" ∈ m then 1 else 0) +
      (if "mhl" ∈ m then 1 else 0) + (if "allowed_so_range" ∈ m then 1 else 0) := by
  rw [Finset.card_filter,countedKeywords,Finset.sum_insert (by decide),
    Finset.sum_insert (by decide),Finset.sum_insert (by decide),Finset.sum_singleton]
  omega

/-- The counter reaches the number of stored patterns exactly when they all hold. -/
theorem detectionCount_eq_size_iff :
    detectionCount isWithin fix data sig = .ok (StdMap.size sig.patterns) ↔
      AllHold isWithin fix data sig := by
  have hnh := counted_nh isWithin fix data sig
  have hht := counted_ht isWithin fix data sig
  have hmhl := counted_mhl isWithin fix data sig
  have hrange := counted_allowedSoRange isWithin fix data sig
  have hcard := card_countedKeywords sig.patterns
  constructor
  · intro h
    cases hw : sig.wanted with
    | error e => simp [detectionCount,hw] at h
    | ok w =>
      have hsum : w.count isWithin fix data = StdMap.size sig.patterns := by
        simpa [detectionCount,hw] using h
      obtain ⟨nh,h₁,ht,h₂,mhl,h₃,range,h₄,rfl⟩ :
          ∃ nh, sig.nh = .ok nh ∧ ∃ ht, sig.ht = .ok ht ∧ ∃ mhl, sig.mhl = .ok mhl ∧
            ∃ range, sig.allowedSoRange = .ok range ∧ ⟨nh,ht,mhl,range⟩ = w := by
        simpa [Signature.wanted] using hw
      have b₁ := hnh.le nh h₁
      have b₂ := hht.le ht h₂
      have b₃ := hmhl.le mhl h₃
      have b₄ := hrange.le range h₄
      have bound := StdMap.card_filter_le_size sig.patterns countedKeywords
      simp only [Wanted.count] at hsum
      have hkeys := (StdMap.card_filter_eq_size_iff sig.patterns countedKeywords).mp (by omega)
      intro key p hp
      have hkey := hkeys key (Finmap.mem_of_lookup_eq_some hp)
      simp only [countedKeywords,Finset.mem_insert,Finset.mem_singleton] at hkey
      rcases hkey with rfl | rfl | rfl | rfl
      · exact hnh.holds nh h₁ (by omega) p hp
      · exact hht.holds ht h₂ (by omega) p hp
      · exact hmhl.holds mhl h₃ (by omega) p hp
      · exact hrange.holds range h₄ (by omega) p hp
  · intro h
    obtain ⟨nh,h₁,c₁⟩ := hnh.counts (h "nh")
    obtain ⟨ht,h₂,c₂⟩ := hht.counts (h "ht")
    obtain ⟨mhl,h₃,c₃⟩ := hmhl.counts (h "mhl")
    obtain ⟨range,h₄,c₄⟩ := hrange.counts (h "allowed_so_range")
    have hkeys := (StdMap.card_filter_eq_size_iff sig.patterns countedKeywords).mpr
      (fun key hkey => by
        obtain ⟨p,hp⟩ := Finmap.mem_iff.mp hkey
        exact (h key p hp).mem_countedKeywords)
    have hw : sig.wanted = .ok ⟨nh,ht,mhl,range⟩ := by
      simp [Signature.wanted,h₁,h₂,h₃,h₄]
    have hsum : Wanted.count isWithin fix data ⟨nh,ht,mhl,range⟩ = StdMap.size sig.patterns := by
      simp only [Wanted.count]
      omega
    simp [detectionCount,hw,hsum]

def reported : Bool :=
  match detectionCount isWithin fix data sig with
  | .ok count => count = StdMap.size sig.patterns
  | .error _ => false

theorem reported_iff : reported isWithin fix data sig = true ↔ AllHold isWithin fix data sig := by
  rw [← detectionCount_eq_size_iff]
  unfold reported
  cases h : detectionCount isWithin fix data sig <;> simp

end

structure SameInner (data₁ data₂ : GeonetData Area) : Prop where
  headerType : data₁.headerType = data₂.headerType
  maximumHopLimit : data₁.maximumHopLimit = data₂.maximumHopLimit
  sourcePosition : data₁.sourcePosition = data₂.sourcePosition

theorem SameInner.symm {data₁ data₂ : GeonetData Area} (h : SameInner data₁ data₂) :
    SameInner data₂ data₁ :=
  ⟨h.headerType.symm,h.maximumHopLimit.symm,h.sourcePosition.symm⟩

theorem Holds.transfer {isWithin : IsWithin Fix} {fix : Fix} {data₁ data₂ : GeonetData Area}
    {key : String} {p : PatternType} (h : Holds isWithin fix data₁ key p)
    (hin : SameInner data₁ data₂) (hnh : key = "nh" → data₁.nextHeader = data₂.nextHeader) :
    Holds isWithin fix data₂ key p := by
  cases h with
  | nh ht => exact .nh (by rw [← hnh rfl]; exact ht)
  | ht ht heq => exact .ht ht (by rw [← hin.headerType]; exact heq)
  | mhl hle => exact .mhl (by rw [← hin.maximumHopLimit]; exact hle)
  | allowedSoRange hw => exact .allowedSoRange (by rw [← hin.sourcePosition]; exact hw)

theorem reported_congr {isWithin : IsWithin Fix} {fix : Fix} {data₁ data₂ : GeonetData Area}
    {sig : Signature} (hin : SameInner data₁ data₂)
    (hnh : "nh" ∈ sig.patterns → data₁.nextHeader = data₂.nextHeader) :
    reported isWithin fix data₁ sig = reported isWithin fix data₂ sig := by
  have hkey : ∀ key p, sig.patterns.lookup key = some p → key = "nh" →
      data₁.nextHeader = data₂.nextHeader := by
    intro key p hp hk
    subst hk
    exact hnh (Finmap.mem_of_lookup_eq_some hp)
  rw [Bool.eq_iff_iff,reported_iff,reported_iff]
  constructor
  · intro h key p hp
    exact (h key p hp).transfer hin (hkey key p hp)
  · intro h key p hp
    exact (h key p hp).transfer hin.symm (fun hk => (hkey key p hp hk).symm)

def Signature.throws (sig : Signature) : Bool :=
  match sig.wanted with
  | .error .badGet => true
  | _ => false

/-- The loop is a filter, unless a signature makes it throw. Whether one does is
not up to the packet. -/
theorem detectSignatures_eq (isWithin : IsWithin Fix) (fix : Fix) (data : GeonetData Area)
    (sigs : List Signature) :
    detectSignatures isWithin fix data sigs =
      if sigs.any Signature.throws then .error .badGet
      else .ok (sigs.filter (reported isWithin fix data)) := by
  induction sigs with
  | nil => rfl
  | cons sig sigs ih =>
    have hcount : detectionCount isWithin fix data sig =
        Wanted.count isWithin fix data <$> sig.wanted := rfl
    cases hw : sig.wanted with
    | error e =>
      rw [hw] at hcount
      cases e with
      | badGet => simp [detectSignatures,hcount,Signature.throws,hw]
      | skip message =>
        simp [detectSignatures,hcount,Signature.throws,hw,reported,ih]
    | ok w =>
      rw [hw] at hcount
      have hthrows : sig.throws = false := by simp [Signature.throws,hw]
      simp only [detectSignatures,hcount,Functor.map,Except.map,ih,List.any_cons,hthrows,
        Bool.false_or]
      by_cases hany : sigs.any Signature.throws = true
      · simp [hany]
      · by_cases hsize : w.count isWithin fix data = StdMap.size sig.patterns
        · simp [hany,hsize,reported,hcount,pure,Except.pure]
        · simp [hany,hsize,reported,hcount,pure,Except.pure]

theorem detect_eq (isWithin : IsWithin Fix) (fix : Fix) (data : GeonetData Area)
    (signatures : SignaturesType) :
    detect isWithin fix data signatures =
      if (signatures.of .geoNetworking).any Signature.throws then .error .badGet
      else .ok (⟨(signatures.of .geoNetworking).filter (reported isWithin fix data),
        DetectionResult.detected.code⟩,(StdMap.subscript signatures .geoNetworking []).2) := by
  have hlist : (StdMap.subscript signatures .geoNetworking []).1 = signatures.of .geoNetworking :=
    StdMap.subscript_fst signatures .geoNetworking []
  simp only [detect,hlist,detectSignatures_eq]
  split <;> rfl

theorem detect_of_lookup {signatures : SignaturesType} {sigs : List Signature}
    (h : signatures.lookup .geoNetworking = some sigs) (isWithin : IsWithin Fix) (fix : Fix)
    (data : GeonetData Area) :
    detect isWithin fix data signatures =
      if sigs.any Signature.throws then .error .badGet
      else .ok (⟨sigs.filter (reported isWithin fix data),DetectionResult.detected.code⟩,
        signatures) := by
  have hof : signatures.of .geoNetworking = sigs := by simp [SignaturesType.of,h]
  rw [detect_eq,hof,StdMap.subscript_of_lookup h]

end Mitvane
