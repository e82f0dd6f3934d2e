import Mitvane.RuleFile
import Mitvane.PatternMatching

set_option autoImplicit false

namespace Mitvane
open PartialRun

inductive InVocabulary : String → PatternType → Prop where
  | nh {text : String} : text ∈ ["common","secure"] → InVocabulary "nh" (.string text)
  | ht {text : String} : text ∈ ["TSB","GBC","SHB"] → InVocabulary "ht" (.string text)
  | mhl (n : Int) : InVocabulary "mhl" (.int n)
  | destinationArea (area : GeonetDestinationArea) :
      InVocabulary "destination_area" (.destinationArea area)
  | allowedSoRange (range : GeonetAllowedSoRange) : range.shape = .circle →
      InVocabulary "allowed_so_range" (.allowedSoRange range)

def Conforms (sig : Signature) : Prop :=
  ∀ key p, sig.patterns.lookup key = some p → InVocabulary key p

theorem Spells.inVocabulary {y : Conversions} {key : String} {node : Node} {p : PatternType}
    (h : Spells y key node p) : InVocabulary key p := by
  cases h with
  | nh ht => exact .nh ht
  | ht ht => exact .ht ht
  | mhl _ => exact .mhl _
  | destinationArea _ _ _ _ => exact .destinationArea _
  | allowedSoRange _ _ _ _ _ _ => exact .allowedSoRange _ rfl

theorem Denotes.conforms {y : Conversions} {rule : Node} {sig : Signature}
    (h : Denotes y rule sig) : Conforms sig :=
  fun key p hp => (h.patterns.values key p hp).inVocabulary

theorem read_extends {y : Conversions} {ruleset : Node} {m m' : SignaturesType}
    {code : RuleReaderStatusCode} (h : read y ruleset m = .ok (code,m')) :
    ∃ rules, ExtendedBy y rules m m' := by
  by_cases hc : code = .success
  · subst hc
    obtain ⟨rules,_,_,hext⟩ := read_succeeded h
    exact ⟨rules,hext⟩
  · obtain ⟨pre,_,hext⟩ := read_failed h hc
    exact ⟨pre,hext⟩

theorem exists_denotes_of_mem {y : Conversions} {rules : List Node} {sigs : List Signature}
    {sig : Signature} (h : List.Forall₂ (Denotes y) rules sigs) (hs : sig ∈ sigs) :
    ∃ rule ∈ rules, Denotes y rule sig := by
  induction h with
  | nil => cases hs
  | @cons rule sig' rules sigs hd _ ih =>
    rcases List.mem_cons.mp hs with rfl | hs
    · exact ⟨rule,by simp,hd⟩
    · obtain ⟨r,hr,hd⟩ := ih hs
      exact ⟨r,by simp [hr],hd⟩

/-- Signature maps that come out of calls of `read`, failed ones included. -/
inductive Produced (y : Conversions) : SignaturesType → Prop where
  | empty : Produced y ∅
  | read {ruleset : Node} {m m' : SignaturesType} {code : RuleReaderStatusCode} :
      Produced y m → read y ruleset m = .ok (code,m') → Produced y m'

theorem read_conforms {y : Conversions} {ruleset : Node} {m m' : SignaturesType}
    {code : RuleReaderStatusCode} (h : read y ruleset m = .ok (code,m'))
    (hm : ∀ sig ∈ m.of .geoNetworking, Conforms sig) :
    ∀ sig ∈ m'.of .geoNetworking, Conforms sig := by
  obtain ⟨rules,hext⟩ := read_extends h
  obtain ⟨sigs,hsigs,hof,_⟩ := hext.loaded .geoNetworking (.inl rfl)
  intro sig hsig
  rw [hof] at hsig
  rcases List.mem_append.mp hsig with hold | hnew
  · exact hm sig hold
  · obtain ⟨rule,_,hd⟩ := exists_denotes_of_mem hsigs hnew
    exact hd.conforms

theorem Produced.conforms {y : Conversions} {m : SignaturesType} (h : Produced y m) :
    ∀ sig ∈ m.of .geoNetworking, Conforms sig := by
  induction h with
  | empty => intro sig hsig; simp [SignaturesType.of] at hsig
  | read _ hr ih => exact read_conforms hr ih

section
variable {key : String} {p : PatternType}

theorem inVocabulary_nh (h : InVocabulary "nh" p) :
    ∃ text nh, p = .string text ∧ transformNh text = some nh := by
  generalize hk : "nh" = k at h
  cases h with
  | @nh text ht =>
    simp only [List.mem_cons,List.not_mem_nil,or_false] at ht
    rcases ht with rfl | rfl
    · exact ⟨_,.common,rfl,rfl⟩
    · exact ⟨_,.secured,rfl,rfl⟩
  | _ => simp at hk

theorem inVocabulary_ht (h : InVocabulary "ht" p) :
    ∃ text ht, p = .string text ∧ transformHt text = some ht := by
  generalize hk : "ht" = k at h
  cases h with
  | @ht text ht =>
    simp only [List.mem_cons,List.not_mem_nil,or_false] at ht
    rcases ht with rfl | rfl | rfl
    · exact ⟨_,_,rfl,rfl⟩
    · exact ⟨_,_,rfl,rfl⟩
    · exact ⟨_,_,rfl,rfl⟩
  | _ => simp at hk

theorem inVocabulary_mhl (h : InVocabulary "mhl" p) : ∃ n, p = .int n := by
  generalize hk : "mhl" = k at h
  cases h with
  | mhl n => exact ⟨n,rfl⟩
  | _ => simp at hk

theorem inVocabulary_allowedSoRange (h : InVocabulary "allowed_so_range" p) :
    ∃ range, p = .allowedSoRange range ∧ range.shape = .circle := by
  generalize hk : "allowed_so_range" = k at h
  cases h with
  | allowedSoRange range hs => exact ⟨range,rfl,hs⟩
  | _ => simp at hk

end

theorem patternUnder_ok {α β : Type} {key : String} {get : PatternType → Option α}
    {transform : α → Except Stop β} {sig : Signature}
    (h : ∀ p, sig.patterns.lookup key = some p → ∃ a b, get p = some a ∧ transform a = .ok b) :
    ∃ w, patternUnder key get transform sig = .ok w := by
  unfold patternUnder
  cases hl : sig.patterns.lookup key with
  | none => exact ⟨none,rfl⟩
  | some p =>
    obtain ⟨a,b,hget,htr⟩ := h p hl
    exact ⟨some b,by simp [hget,htr]⟩

/-- A conforming signature is read to the end: no `boost::get` throws and no
branch skips it. -/
theorem Conforms.wanted {sig : Signature} (h : Conforms sig) : ∃ w, sig.wanted = .ok w := by
  obtain ⟨nh,h₁⟩ : ∃ w, sig.nh = .ok w := by
    apply patternUnder_ok
    intro p hp
    obtain ⟨text,nh,rfl,ht⟩ := inVocabulary_nh (h _ p hp)
    exact ⟨text,nh,rfl,orSkip_eq_ok.mpr ht⟩
  obtain ⟨ht,h₂⟩ : ∃ w, sig.ht = .ok w := by
    apply patternUnder_ok
    intro p hp
    obtain ⟨text,ht,rfl,htr⟩ := inVocabulary_ht (h _ p hp)
    exact ⟨text,ht,rfl,orSkip_eq_ok.mpr htr⟩
  obtain ⟨mhl,h₃⟩ : ∃ w, sig.mhl = .ok w := by
    apply patternUnder_ok
    intro p hp
    obtain ⟨n,rfl⟩ := inVocabulary_mhl (h _ p hp)
    exact ⟨n,n,rfl,rfl⟩
  obtain ⟨range,h₄⟩ : ∃ w, sig.allowedSoRange = .ok w := by
    apply patternUnder_ok
    intro p hp
    obtain ⟨range,rfl,hs⟩ := inVocabulary_allowedSoRange (h _ p hp)
    exact ⟨range,range,rfl,orSkip_eq_ok.mpr (if_pos hs)⟩
  exact ⟨⟨nh,ht,mhl,range⟩,by simp [Signature.wanted,h₁,h₂,h₃,h₄]⟩

theorem Conforms.throws_eq_false {sig : Signature} (h : Conforms sig) : sig.throws = false := by
  obtain ⟨w,hw⟩ := h.wanted
  simp [Signature.throws,hw]

/-- Reader and detector agree: whatever `read` returns, the GeoNetworking list only
holds patterns that the detector can evaluate. -/
theorem read_then_detect_total (y : Conversions) (ruleset : Node) (m m' : SignaturesType)
    (code : RuleReaderStatusCode)
    (hm : ∀ sig ∈ m.of .geoNetworking, ∃ m₀, Produced y m₀ ∧ sig ∈ m₀.of .geoNetworking)
    (h : read y ruleset m = .ok (code,m')) :
    (∀ sig ∈ m'.of .geoNetworking, Conforms sig ∧ ∃ w, sig.wanted = .ok w) ∧
    ∀ (Fix Area : Type) (isWithin : IsWithin Fix) (fix : Fix) (data : GeonetData Area),
      ∃ report, detect isWithin fix data m' = .ok report := by
  have hconf : ∀ sig ∈ m'.of .geoNetworking, Conforms sig := by
    apply read_conforms h
    intro sig hsig
    obtain ⟨m₀,hp,hs⟩ := hm sig hsig
    exact hp.conforms sig hs
  refine ⟨fun sig hsig => ⟨hconf sig hsig,(hconf sig hsig).wanted⟩,?_⟩
  intro Fix Area isWithin fix data
  have hany : (m'.of .geoNetworking).any Signature.throws = false := by
    rw [List.any_eq_false]
    intro sig hsig
    simp [(hconf sig hsig).throws_eq_false]
  exact ⟨_,by rw [detect_eq,hany]; rfl⟩

def loadedOnce : SignaturesType := appendSignature ∅ .geoNetworking largeHopLimitSignature

theorem produced_loadedOnce : Produced decimalConversions loadedOnce :=
  @Produced.read decimalConversions (ruleDocument [largeHopLimitRule]) ∅ loadedOnce .success
    .empty rfl

theorem read_then_detect_total_brokenDocument :
    read decimalConversions brokenDocument loadedOnce =
      .ok (.undefinedAction,appendSignature loadedOnce .geoNetworking largeHopLimitSignature) ∧
    Conforms largeHopLimitSignature ∧ ∃ w, largeHopLimitSignature.wanted = .ok w := by
  refine ⟨rfl,(read_then_detect_total decimalConversions brokenDocument loadedOnce
    (appendSignature loadedOnce .geoNetworking largeHopLimitSignature) .undefinedAction
    (fun sig hsig => ⟨loadedOnce,produced_loadedOnce,hsig⟩) rfl).1 largeHopLimitSignature ?_⟩
  exact List.mem_cons_self

end Mitvane
