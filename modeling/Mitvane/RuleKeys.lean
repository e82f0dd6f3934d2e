import Mitvane.RuleExceptions
import Mitvane.Vocabulary

set_option autoImplicit false

namespace Mitvane
open PartialRun
variable {Area Fix : Type}

/-- The keys of a rule map. A key without a value is not visible to the reader. -/
inductive HasKey : Node → Node → Prop where
  | text {rule : Node} {key : String} : (rule.field key).isDefined = true →
      HasKey rule (.scalar key)
  | other {entries : List (Node × Node)} {key value : Node} : (key,value) ∈ entries →
      key.isScalar = false → value.isDefined = true → HasKey (.map entries) key

def headKeys : List String := ["action","protocol","meta"]

def ConditionKey (rule key : Node) : Prop :=
  HasKey rule key ∧ ∀ text ∈ headKeys, key ≠ .scalar text

/-- Every condition of the rule is a pattern of the signature, and a rule with a
condition is not stored as a signature without one. -/
structure ConditionsKept (rule : Node) (sig : Signature) : Prop where
  represented : ∀ key, ConditionKey rule key → ∃ text, key = .scalar text ∧ text ∈ sig.patterns
  conditional : ∀ key, ConditionKey rule key → sig.patterns ≠ ∅

def KnownKeywords (rule : Node) : Prop :=
  ∀ key, ConditionKey rule key → ∃ text ∈ conditionKeywords, key = .scalar text

theorem reported_of_no_patterns {sig : Signature} (h : sig.patterns = ∅)
    (isWithin : IsWithin Fix) (fix : Fix) (data : GeonetData Area) :
    reported isWithin fix data sig = true := by
  rw [reported_iff]
  intro key p hp
  rw [h] at hp
  simp at hp

theorem conditionsKept_iff {y : Conversions} {rule : Node} {sig : Signature}
    (h : Denotes y rule sig) (hp : sig.protocol = .geoNetworking) :
    ConditionsKept rule sig ↔ KnownKeywords rule := by
  have hkeys := h.patterns.keys
  simp only [hp,if_true] at hkeys
  constructor
  · intro hk key hkey
    obtain ⟨text,rfl,hmem⟩ := hk.represented key hkey
    exact ⟨text,((hkeys text).mp hmem).1,rfl⟩
  · intro hk
    have hrep : ∀ key, ConditionKey rule key → ∃ text, key = .scalar text ∧
        text ∈ sig.patterns := by
      intro key hkey
      obtain ⟨text,hmem,rfl⟩ := hk key hkey
      cases hkey.1 with
      | text hdef => exact ⟨text,rfl,(hkeys text).mpr ⟨hmem,hdef⟩⟩
      | other _ hs _ => simp [Node.isScalar] at hs
    refine ⟨hrep,?_⟩
    intro key hkey hempty
    obtain ⟨text,_,hmem⟩ := hrep key hkey
    rw [hempty] at hmem
    exact Finmap.notMem_empty hmem

theorem read_accepted {y : Conversions} {ruleset : Node} {m m' : SignaturesType}
    {code : RuleReaderStatusCode} (h : read y ruleset m = .ok (code,m')) :
    ∃ accepted rest, ruleset.ruleSequence.getD [] = accepted ++ rest ∧
      (code = .success → rest = []) ∧ ExtendedBy y accepted m m' := by
  by_cases hc : code = .success
  · subst hc
    obtain ⟨rules,hseq,_,hext⟩ := read_succeeded h
    exact ⟨rules,[],by simp [hseq],fun _ => rfl,hext⟩
  · obtain ⟨pre,hpre,hext⟩ := read_failed h hc
    rcases hpre with ⟨hseq,rfl⟩ | ⟨bad,post,hseq,_⟩
    · exact ⟨[],[],by simp [hseq],fun _ => rfl,hext⟩
    · exact ⟨pre,bad :: post,by simp [hseq],fun h => absurd h hc,hext⟩

theorem protocol_of_mem_rulesOf {p : Protocol} {rules : List Node} {rule : Node}
    (h : rule ∈ rulesOf p rules) : ruleProtocol rule = some p := by
  simpa using (List.mem_filter.mp h).2

theorem forall₂_rulesOf {y : Conversions} {p : Protocol} {rules : List Node}
    {sigs : List Signature} {R : Node → Signature → Prop}
    (h : List.Forall₂ (Denotes y) rules sigs) (hrules : ∀ rule ∈ rules, ruleProtocol rule = some p)
    (hR : ∀ rule sig, Denotes y rule sig → sig.protocol = p → R rule sig) :
    List.Forall₂ R rules sigs := by
  induction h with
  | nil => exact .nil
  | @cons rule sig rules sigs hd _ ih =>
    have hp : sig.protocol = p :=
      Option.some.inj (hd.protocol.symm.trans (hrules rule (by simp)))
    exact .cons (hR rule sig hd hp) (ih (fun r hr => hrules r (by simp [hr])))

/-- No condition of an accepted GeoNetworking rule is lost exactly when all of them are
under known keywords. -/
theorem conditions_kept_iff_known (y : Conversions) (ruleset : Node) (m m' : SignaturesType)
    (code : RuleReaderStatusCode) (h : read y ruleset m = .ok (code,m')) :
    ∃ accepted rest sigs, ruleset.ruleSequence.getD [] = accepted ++ rest ∧
      (code = .success → rest = []) ∧
      m'.of .geoNetworking = m.of .geoNetworking ++ sigs ∧
      List.Forall₂ (fun rule sig => Denotes y rule sig ∧
        (ConditionsKept rule sig ↔ KnownKeywords rule)) (rulesOf .geoNetworking accepted) sigs := by
  obtain ⟨accepted,rest,hseq,hrest,hext⟩ := read_accepted h
  obtain ⟨sigs,hsigs,hof,_⟩ := hext.loaded .geoNetworking (.inl rfl)
  refine ⟨accepted,rest,sigs,hseq,hrest,hof,?_⟩
  exact forall₂_rulesOf hsigs (fun rule hrule => protocol_of_mem_rulesOf hrule)
    (fun rule sig hd hp => ⟨hd,conditionsKept_iff hd hp⟩)

theorem hasKey_ofFields {fields : List (String × Node)} {key : Node}
    (h : HasKey (Node.ofFields fields) key) :
    ∃ text ∈ fields.map Prod.fst, key = .scalar text := by
  generalize hrule : Node.ofFields fields = rule at h
  cases h with
  | @text _ key hdef =>
    subst hrule
    refine ⟨key,?_,rfl⟩
    by_contra hn
    have hfind : (fields.map (fun f => (Node.scalar f.1,f.2))).find?
        (fun e => e.1.isText key) = none := by
      rw [List.find?_eq_none]
      intro e he
      obtain ⟨f,hf,rfl⟩ := List.mem_map.mp he
      have hne : f.1 ≠ key := fun heq => hn (heq ▸ List.mem_map_of_mem hf)
      simpa [Node.isText] using hne
    simp [Node.ofFields,Node.field,hfind,Node.isDefined] at hdef
  | @other entries key value hmem hs _ =>
    cases hrule
    obtain ⟨f,_,hf⟩ := List.mem_map.mp hmem
    cases hf
    simp [Node.isScalar] at hs

theorem knownKeywords_largeHopLimitRule : KnownKeywords largeHopLimitRule := by
  intro key hkey
  obtain ⟨text,hmem,rfl⟩ := hasKey_ofFields hkey.1
  have hhead := hkey.2
  simp only [headKeys,List.mem_cons,List.not_mem_nil,or_false,forall_eq_or_imp,forall_eq,
    ne_eq,Node.scalar.injEq] at hhead
  simp only [List.map_cons,List.map_nil,List.mem_cons,List.not_mem_nil,or_false] at hmem
  rcases hmem with rfl | rfl | rfl | rfl | rfl
  · exact absurd rfl hhead.1
  · exact absurd rfl hhead.2.1
  · exact absurd rfl hhead.2.2
  · exact ⟨_,by decide,rfl⟩
  · exact ⟨_,by decide,rfl⟩

theorem conditions_kept_largeHopLimit :
    ∃ sigs, loadedOnce.of .geoNetworking = sigs ∧
      List.Forall₂ ConditionsKept [largeHopLimitRule] sigs := by
  obtain ⟨accepted,rest,sigs,hseq,hrest,hof,hall⟩ := conditions_kept_iff_known decimalConversions
    (ruleDocument [largeHopLimitRule]) ∅ loadedOnce .success rfl
  have hrules : [largeHopLimitRule] = accepted := by
    rw [hrest rfl,List.append_nil] at hseq
    exact hseq
  subst hrules
  refine ⟨sigs,by simpa [SignaturesType.of] using hof,?_⟩
  have hgeo : rulesOf .geoNetworking [largeHopLimitRule] = [largeHopLimitRule] := rfl
  rw [hgeo] at hall
  cases hall with
  | cons hd htail =>
    cases htail
    exact .cons (hd.2.mpr knownKeywords_largeHopLimitRule) .nil

def misspeltRule : Node := Node.ofFields
  [("action",.scalar "drop"),("protocol",.scalar "GeoNetworking"),
   ("meta",Node.ofFields [("msg",.scalar "GBC with large max hop limit is detected."),
     ("sid",.scalar "2"),("rev",.scalar "1")]),
   ("mlh",.scalar "3")]

def unconditionalSignature : Signature := { largeHopLimitSignature with patterns := ∅ }

theorem misspelt_keyword_drops_everything :
    read decimalConversions (ruleDocument [misspeltRule]) ∅ =
      .ok (.success,appendSignature ∅ .geoNetworking unconditionalSignature) ∧
    ¬ ConditionsKept misspeltRule unconditionalSignature ∧
    ∀ (isWithin : IsWithin Unit) (data : GeonetData Unit),
      reported isWithin () data unconditionalSignature = true := by
  refine ⟨rfl,?_,fun isWithin data => reported_of_no_patterns rfl isWithin () data⟩
  intro h
  exact h.conditional (.scalar "mlh") ⟨.text rfl,by simp [headKeys]⟩ rfl

theorem facility_no_patterns {y : Conversions} {rule : Node} {sig : Signature}
    (h : Denotes y rule sig) (hp : sig.protocol = .facility) (key : String) :
    key ∉ sig.patterns := by
  have hkeys := h.patterns.keys key
  simp only [hp] at hkeys
  simpa using hkeys

theorem readRule_badPattern {y : Conversions} {rule : Node}
    (h : readRule y rule = .error (.status .badPattern)) :
    ruleProtocol rule = some .geoNetworking := by
  rw [readRule,bind_eq_error] at h
  rcases h with h | ⟨sig,hhead,h⟩
  · exact absurd rfl ((readHead_ends y rule).of_error h).2.1
  · have hsig := (readHead_meets y rule).of_ok hhead
    rw [readPatterns] at h
    cases hp : sig.protocol with
    | geoNetworking => rw [hsig.protocol,hp]
    | facility =>
      obtain ⟨r,hr,_⟩ := readFacilityPattern_ok y (isScalar_false_of_ruleAction hsig.action) sig
      rw [hp] at h
      simp only [hr] at h
      cases h
    | _ =>
      rw [hp] at h
      cases h

theorem read_badPattern {y : Conversions} {ruleset : Node} {m m' : SignaturesType}
    (h : read y ruleset m = .ok (.badPattern,m')) :
    ∃ pre bad post, ruleset.ruleSequence = some (pre ++ bad :: post) ∧
      readRule y bad = .error (.status .badPattern) ∧ ExtendedBy y pre m m' := by
  rw [read_eq] at h
  cases hseq : ruleset.ruleSequence with
  | none =>
    rw [hseq] at h
    cases h
  | some rules =>
    rw [hseq] at h
    simp only at h
    have hne : ∀ m', readRules y rules m ≠ .ok (.success,m') := by simp [h]
    obtain ⟨pre,bad,post,m₁,rfl,_,hext,hend,hbad⟩ := readRules_stops hne
    refine ⟨pre,bad,post,rfl,?_⟩
    rw [h,readRules] at hend
    cases hx : readRule y bad with
    | ok sig => exact absurd hx (hbad sig)
    | error e =>
      rw [hx] at hend
      cases e with
      | status code => cases hend; exact ⟨rfl,hext⟩
      | exception e => cases hend

theorem ExtendedBy.length_of {y : Conversions} {rules : List Node} {m m' : SignaturesType}
    (h : ExtendedBy y rules m m') {p : Protocol} (hp : p = .geoNetworking ∨ p = .facility) :
    (m'.of p).length = (m.of p).length + (rulesOf p rules).length := by
  obtain ⟨sigs,hsigs,hof,_⟩ := h.loaded p hp
  rw [hof,List.length_append,hsigs.length_eq]

/-- A load does not end at two places of the document that have a stored rule between
them. -/
theorem ExtendedBy.not_beyond {y : Conversions} {pre rest : List Node} {rule : Node}
    {m m' : SignaturesType} {p : Protocol} (h : ExtendedBy y pre m m')
    (hp : p = .geoNetworking ∨ p = .facility) (hrule : ruleProtocol rule = some p) :
    ¬ ExtendedBy y (pre ++ rule :: rest) m m' := by
  intro h'
  have hlen := h.length_of hp
  have hlen' := h'.length_of hp
  rw [rulesOf,List.filter_append,List.length_append,← rulesOf,← rulesOf,rulesOf_cons,if_pos hrule,
    List.length_cons] at hlen'
  omega

/-- The ids of the facility rule at a place of the document survive the load: an id list
is stored in order and unchanged, anything else is rejected. -/
structure IdsSurvive (y : Conversions) (ruleset : Node) (m : SignaturesType) (pre : List Node)
    (rule : Node) : Prop where
  kept : ∀ items ids, rule.field "allowed_ids" = .sequence items →
    List.Forall₂ (SpellsId y) items ids →
    ∃ code m' before sig after, read y ruleset m = .ok (code,m') ∧
      m'.of .facility = m.of .facility ++ (before ++ sig :: after) ∧
      before.length = (rulesOf .facility pre).length ∧
      sig.patterns.lookup "allowed_ids" = some (.facilityIds ids)
  rejected : (rule.field "allowed_ids").isDefined = true →
    (rule.field "allowed_ids").isSequence = false →
    ∃ m', read y ruleset m = .ok (.badPattern,m') ∧ ExtendedBy y pre m m'

/-- An `allowed_ids` the statement speaks about: ids of 32 bits, or not a sequence. -/
def AllowedIdsGiven (y : Conversions) (rule : Node) : Prop :=
  (∃ items ids, rule.field "allowed_ids" = .sequence items ∧
    List.Forall₂ (SpellsId y) items ids) ∨
  ((rule.field "allowed_ids").isDefined = true ∧ (rule.field "allowed_ids").isSequence = false)

/-- The ids of no facility rule survive, because the reader walks the keyword table of
GeoNetworking. -/
theorem facility_ids_never_survive (y : Conversions) (ruleset : Node) (m : SignaturesType)
    (pre : List Node) (rule : Node) (post : List Node)
    (hseq : ruleset.ruleSequence = some (pre ++ rule :: post))
    (hp : ruleProtocol rule = some .facility) (hids : AllowedIdsGiven y rule) :
    ¬ IdsSurvive y ruleset m pre rule := by
  intro h
  rcases hids with ⟨items,ids,hitems,hspells⟩ | ⟨hdef,hnot⟩
  · obtain ⟨code,m',before,sig,after,hread,hof,_,hlookup⟩ := h.kept items ids hitems hspells
    obtain ⟨rules,hext⟩ := read_extends hread
    obtain ⟨sigs,hsigs,hof',_⟩ := hext.loaded .facility (.inr rfl)
    rw [hof] at hof'
    have hmem : sig ∈ sigs := by rw [← List.append_cancel_left hof']; simp
    obtain ⟨r,hr,hd⟩ := exists_denotes_of_mem hsigs hmem
    have hfac : sig.protocol = .facility :=
      Option.some.inj (hd.protocol.symm.trans (protocol_of_mem_rulesOf hr))
    exact facility_no_patterns hd hfac "allowed_ids" (Finmap.mem_of_lookup_eq_some hlookup)
  · obtain ⟨m',hread,hext⟩ := h.rejected hdef hnot
    obtain ⟨pre',bad,post',hseq',hbad,hext'⟩ := read_badPattern hread
    have hgeo := readRule_badPattern hbad
    rw [hseq,Option.some.injEq,List.append_eq_append_iff] at hseq'
    -- the load stopped before the rule, at it or after it
    rcases hseq' with ⟨between,rfl,hsplit⟩ | ⟨between,rfl,hsplit⟩
    · cases between with
      | nil =>
        rw [List.nil_append,List.cons.injEq] at hsplit
        rw [hsplit.1,hgeo] at hp
        cases hp
      | cons r between =>
        rw [List.cons_append,List.cons.injEq] at hsplit
        rw [hsplit.1] at hp
        exact hext.not_beyond (.inr rfl) hp hext'
    · cases between with
      | nil =>
        rw [List.nil_append,List.cons.injEq] at hsplit
        rw [← hsplit.1,hgeo] at hp
        cases hp
      | cons r between =>
        rw [List.cons_append,List.cons.injEq] at hsplit
        rw [hsplit.1] at hgeo
        exact hext'.not_beyond (.inl rfl) hgeo hext

def trustedStationsRule : Node := Node.ofFields
  [("action",.scalar "drop"),("protocol",.scalar "facility"),
   ("meta",Node.ofFields
     [("msg",.scalar "A packet from not trusted ITS-S is detected. (Identity based)"),
      ("sid",.scalar "4"),("rev",.scalar "1")]),
   ("allowed_ids",.sequence [.scalar "123490",.scalar "123491",.scalar "123492"])]

def trustedStationsSignature : Signature where
  action := .drop
  protocol := .facility
  metaData := ⟨"A packet from not trusted ITS-S is detected. (Identity based)",4,1⟩
  patterns := ∅

theorem spelled_trustedStations :
    List.Forall₂ (SpellsId decimalConversions)
      [.scalar "123490",.scalar "123491",.scalar "123492"] [123490,123491,123492] :=
  .cons ⟨_,rfl,rfl⟩ (.cons ⟨_,rfl,rfl⟩ (.cons ⟨_,rfl,rfl⟩ .nil))

theorem trusted_stations_never_survive :
    ¬ IdsSurvive decimalConversions (ruleDocument [trustedStationsRule]) ∅ []
      trustedStationsRule :=
  facility_ids_never_survive decimalConversions (ruleDocument [trustedStationsRule]) ∅ []
    trustedStationsRule [] rfl rfl (.inl ⟨_,_,rfl,spelled_trustedStations⟩)

theorem trusted_stations_are_lost :
    read decimalConversions (ruleDocument [trustedStationsRule]) ∅ =
      .ok (.success,appendSignature ∅ .facility trustedStationsSignature) ∧
    ¬ IdsSurvive decimalConversions (ruleDocument [trustedStationsRule]) ∅ []
      trustedStationsRule := by
  have hread : read decimalConversions (ruleDocument [trustedStationsRule]) ∅ =
      .ok (.success,appendSignature ∅ .facility trustedStationsSignature) := rfl
  refine ⟨hread,?_⟩
  intro h
  obtain ⟨code,m',before,sig,after,hread',hof,hbefore,hlookup⟩ :=
    h.kept _ _ rfl spelled_trustedStations
  rw [hread] at hread'
  cases hread'
  have hnil : before = [] := List.length_eq_zero_iff.mp hbefore
  subst hnil
  have hsig : trustedStationsSignature = sig := (List.cons.inj hof).1
  subst hsig
  cases hlookup

end Mitvane
