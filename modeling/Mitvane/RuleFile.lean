import Mitvane.RuleLoading

set_option autoImplicit false

namespace Mitvane
open PartialRun

theorem lookup_appendSignature (m : SignaturesType) (p q : Protocol) (sig : Signature) :
    (appendSignature m p sig).lookup q =
      if q = p then some (m.of p ++ [sig]) else m.lookup q := by
  unfold appendSignature
  cases h : m.lookup p with
  | none => simp [StdMap.lookup_insert_eq,SignaturesType.of,h]
  | some sigs => simp [StdMap.lookup_insert_eq,SignaturesType.of,h]

theorem of_appendSignature (m : SignaturesType) (p q : Protocol) (sig : Signature) :
    (appendSignature m p sig).of q = if q = p then m.of p ++ [sig] else m.of q := by
  unfold SignaturesType.of
  rw [lookup_appendSignature]
  by_cases h : q = p
  · simp [h,SignaturesType.of]
  · simp [h]

theorem mem_appendSignature (m : SignaturesType) (p q : Protocol) (sig : Signature) :
    q ∈ appendSignature m p sig ↔ q = p ∨ q ∈ m := by
  rw [Finmap.mem_iff,Finmap.mem_iff,lookup_appendSignature]
  by_cases h : q = p <;> simp [h]

def Protocol.isLoaded (p : Protocol) : Prop := p = .geoNetworking ∨ p = .facility

instance (p : Protocol) : Decidable p.isLoaded := inferInstanceAs (Decidable (_ ∨ _))

theorem storeSignature_eq (m : SignaturesType) (sig : Signature) :
    storeSignature m sig =
      if sig.protocol.isLoaded then appendSignature m sig.protocol sig else m := by
  unfold storeSignature
  cases h : sig.protocol <;> simp [Protocol.isLoaded]

theorem rulesOf_cons (p : Protocol) (rule : Node) (rules : List Node) :
    rulesOf p (rule :: rules) =
      if ruleProtocol rule = some p then rule :: rulesOf p rules else rulesOf p rules := by
  by_cases h : ruleProtocol rule = some p <;> simp [rulesOf,h]

theorem ExtendedBy.refl (y : Conversions) (m : SignaturesType) : ExtendedBy y [] m m where
  loaded := fun p _ => ⟨[],by simp [rulesOf],by simp,by simp [rulesOf]⟩
  others := fun _ _ _ => rfl

theorem ExtendedBy.cons {y : Conversions} {rule : Node} {rules : List Node} {sig : Signature}
    {m m' : SignaturesType} (hd : Denotes y rule sig)
    (h : ExtendedBy y rules (storeSignature m sig) m') : ExtendedBy y (rule :: rules) m m' := by
  rw [storeSignature_eq] at h
  by_cases hl : sig.protocol.isLoaded
  · rw [if_pos hl] at h
    constructor
    · intro p hp
      obtain ⟨sigs,hsigs,hof,hmem⟩ := h.loaded p hp
      rw [of_appendSignature] at hof
      rw [mem_appendSignature] at hmem
      rw [rulesOf_cons,hd.protocol]
      by_cases heq : p = sig.protocol
      · subst p
        refine ⟨sig :: sigs,by simpa using ⟨hd,hsigs⟩,by simpa using hof,?_⟩
        simp [hmem]
      · have hne : sig.protocol ≠ p := fun e => heq e.symm
        refine ⟨sigs,by simpa [hne] using hsigs,by simpa [heq] using hof,?_⟩
        simpa [hne,heq] using hmem
    · intro p hgeo hfac
      rw [h.others p hgeo hfac,lookup_appendSignature]
      have hne : p ≠ sig.protocol := by
        intro heq
        subst heq
        exact hl.elim hgeo hfac
      simp [hne]
  · rw [if_neg hl] at h
    constructor
    · intro p hp
      obtain ⟨sigs,hsigs,hof,hmem⟩ := h.loaded p hp
      have hne : sig.protocol ≠ p := by
        intro heq
        subst heq
        exact hl hp
      refine ⟨sigs,?_,hof,?_⟩
      · rw [rulesOf_cons,hd.protocol]
        simpa [hne] using hsigs
      · rw [rulesOf_cons,hd.protocol]
        simpa [hne] using hmem
    · exact h.others

theorem collapse_ne_success {σ α : Type} {code : RuleReaderStatusCode} (hc : code ≠ .success)
    (x : Except (Failure σ) α) : collapse code x ≠ .error (.status .success) := by
  intro h
  simp only [collapse,mapError_eq_error] at h
  obtain ⟨e,_,he⟩ := h
  cases e with
  | status s => exact hc (by simpa using he)
  | exception e => cases he

theorem readPatterns_ne_success (y : Conversions) (rule : Node) (sig : Signature) :
    readPatterns y rule sig ≠ .error (.status .success) := by
  have hmap : ∀ {x : Except (Failure RuleReaderStatusCode) PatternRead},
      x ≠ .error (.status .success) → PatternRead.sig <$> x ≠ .error (.status .success) := by
    intro x hx h
    cases x with
    | ok r => cases h
    | error e => cases h; exact hx rfl
  unfold readPatterns
  cases sig.protocol with
  | geoNetworking => exact hmap (collapse_ne_success (by decide) _)
  | facility => exact hmap (collapse_ne_success (by decide) _)
  | _ => exact pure_ne_error

theorem readRule_ne_success (y : Conversions) (rule : Node) :
    readRule y rule ≠ .error (.status .success) := by
  intro h
  simp [readRule,readHead,collapse_ne_success,readPatterns_ne_success] at h

theorem readRules_meets (y : Conversions) (rules : List Node) (m : SignaturesType) :
    Meets (readRules y rules m)
      (fun r => if r.1 = .success then
          (∀ rule ∈ rules, RuleGrammar rule) ∧ ExtendedBy y rules m r.2
        else ∃ pre bad post, rules = pre ++ bad :: post ∧ (∀ rule ∈ pre, RuleGrammar rule) ∧
          ¬ RuleGrammar bad ∧ ExtendedBy y pre m r.2)
      (fun e => e = .badConversion ∨ ∃ rule ∈ rules, ¬ RuleGrammar rule) := by
  induction rules generalizing m with
  | nil => exact ⟨by simp,ExtendedBy.refl y m⟩
  | cons rule rules ih =>
    have hrule := readRule_meets y rule
    unfold readRules
    cases h : readRule y rule with
    | ok sig =>
      have hd := hrule.of_ok h
      refine (ih (storeSignature m sig)).mono ?_ ?_
      · intro r hr
        obtain ⟨code,m'⟩ := r
        by_cases hc : code = .success
        · rw [if_pos hc] at hr ⊢
          exact ⟨by simpa using ⟨hd.ruleGrammar,hr.1⟩,hr.2.cons hd⟩
        · rw [if_neg hc] at hr ⊢
          obtain ⟨pre,bad,post,rfl,hpre,hbad,hext⟩ := hr
          exact ⟨rule :: pre,bad,post,rfl,by simpa using ⟨hd.ruleGrammar,hpre⟩,hbad,hext.cons hd⟩
      · intro e hcase
        rcases hcase with he | ⟨r,hr,hbad⟩
        · exact .inl he
        · exact .inr ⟨r,by simp [hr],hbad⟩
    | error e =>
      have hblame := hrule.of_error h
      cases e with
      | status code =>
        have hc : code ≠ .success := fun hc => readRule_ne_success y rule (hc ▸ h)
        show if code = .success then _ else _
        rw [if_neg hc]
        exact ⟨[],rule,rules,rfl,by simp,hblame,ExtendedBy.refl y m⟩
      | exception e =>
        rcases hblame with he | hbad
        · exact .inl he
        · exact .inr ⟨rule,by simp,hbad⟩

/-- The rule sequence of a document, when it has one. -/
def Node.ruleSequence (ruleset : Node) : Option (List Node) :=
  match ruleset.field "rules" with
  | .sequence rules => some rules
  | _ => none

theorem read_eq (y : Conversions) (ruleset : Node) (m : SignaturesType) :
    read y ruleset m =
      match ruleset.ruleSequence with
      | some rules => readRules y rules m
      | none => .ok (.brokenRuleStructure,m) := by
  cases ruleset with
  | map entries =>
    unfold read Node.ruleSequence
    cases (Node.map entries).field "rules" <;> rfl
  | _ => rfl

theorem documentGrammar_iff (ruleset : Node) :
    DocumentGrammar ruleset ↔
      ∃ rules, ruleset.ruleSequence = some rules ∧ ∀ rule ∈ rules, RuleGrammar rule := by
  unfold DocumentGrammar Node.ruleSequence
  cases ruleset with
  | map entries =>
    cases h : (Node.map entries).field "rules" <;> simp [Node.isMap]
  | _ => simp [Node.isMap,Node.field]

theorem read_succeeded {y : Conversions} {ruleset : Node} {m m' : SignaturesType}
    (h : read y ruleset m = .ok (.success,m')) :
    ∃ rules, ruleset.ruleSequence = some rules ∧ (∀ rule ∈ rules, RuleGrammar rule) ∧
      ExtendedBy y rules m m' := by
  rw [read_eq] at h
  cases hseq : ruleset.ruleSequence with
  | none => rw [hseq] at h; cases h
  | some rules =>
    rw [hseq] at h
    have hok := (readRules_meets y rules m).of_ok h
    exact ⟨rules,rfl,hok.1,hok.2⟩

theorem read_failed {y : Conversions} {ruleset : Node} {m m' : SignaturesType}
    {code : RuleReaderStatusCode} (h : read y ruleset m = .ok (code,m')) (hc : code ≠ .success) :
    ∃ pre, ((ruleset.ruleSequence = none ∧ pre = []) ∨
        ∃ bad post, ruleset.ruleSequence = some (pre ++ bad :: post) ∧
          (∀ rule ∈ pre, RuleGrammar rule) ∧ ¬ RuleGrammar bad) ∧ ExtendedBy y pre m m' := by
  rw [read_eq] at h
  cases hseq : ruleset.ruleSequence with
  | none =>
    rw [hseq] at h
    cases h
    exact ⟨[],.inl ⟨rfl,rfl⟩,ExtendedBy.refl y m⟩
  | some rules =>
    rw [hseq] at h
    have hfail := (readRules_meets y rules m).of_ok h
    rw [if_neg hc] at hfail
    obtain ⟨pre,bad,post,rfl,hpre,hbad,hext⟩ := hfail
    exact ⟨pre,.inr ⟨bad,post,rfl,hpre,hbad⟩,hext⟩

theorem ruleSequence_eq_some {ruleset : Node} {rules : List Node}
    (h : ruleset.ruleSequence = some rules) : ruleset.field "rules" = .sequence rules := by
  unfold Node.ruleSequence at h
  split at h
  · rename_i items hitems
    rw [hitems,Option.some.inj h]
  · cases h

/-- The reader accepts exactly the documents of the grammar and loads exactly what
they say, unless a scalar in number position is not a number. -/
theorem read_accepts_grammar (y : Conversions) (ruleset : Node) (m : SignaturesType)
    (hconv : read y ruleset m ≠ .error .badConversion) :
    ((∃ m', read y ruleset m = .ok (.success,m')) ↔ DocumentGrammar ruleset) ∧
    ∀ m', read y ruleset m = .ok (.success,m') →
      ∃ rules, ruleset.field "rules" = .sequence rules ∧ ExtendedBy y rules m m' := by
  rw [documentGrammar_iff]
  refine ⟨⟨?_,?_⟩,?_⟩
  · intro ⟨m',hr⟩
    obtain ⟨rules,hseq,hgrammar,_⟩ := read_succeeded hr
    exact ⟨rules,hseq,hgrammar⟩
  · intro ⟨rules,hseq,hgrammar⟩
    cases hr : read y ruleset m with
    | error e =>
      rw [read_eq,hseq] at hr
      rcases (readRules_meets y rules m).of_error hr with rfl | ⟨rule,hrule,hbad⟩
      · exact absurd (by rw [read_eq,hseq]; exact hr) hconv
      · exact absurd (hgrammar rule hrule) hbad
    | ok r =>
      obtain ⟨code,m'⟩ := r
      by_cases hc : code = .success
      · subst hc
        exact ⟨m',rfl⟩
      · obtain ⟨pre,hstop | ⟨bad,post,hseq',_,hbad⟩,_⟩ := read_failed hr hc
        · rw [hseq] at hstop
          cases hstop.1
        · rw [hseq] at hseq'
          cases hseq'
          exact absurd (hgrammar bad (by simp)) hbad
  · intro m' hr
    obtain ⟨rules,hseq,_,hext⟩ := read_succeeded hr
    exact ⟨rules,ruleSequence_eq_some hseq,hext⟩

/-- Unsigned decimal numerals, as far as the concrete documents below need them. -/
def decimal (text : String) : Option Nat :=
  match text.toList with
  | [] => none
  | cs => cs.foldlM (fun n c => if c.isDigit then some (10*n+(c.toNat-48)) else none) 0

def decimalConversions : Conversions where
  int text := (decimal text).bind (fun n => if n < 2^31 then some (n : Int) else none)
  uint32 text := (decimal text).bind (fun n => if n < 2^32 then some (UInt32.ofNat n) else none)
  uint16 text := (decimal text).bind (fun n => if n < 2^16 then some (UInt16.ofNat n) else none)

def Node.ofFields (fields : List (String × Node)) : Node :=
  .map (fields.map (fun f => (.scalar f.1,f.2)))

def largeHopLimitRule : Node := Node.ofFields
  [("action",.scalar "drop"),("protocol",.scalar "GeoNetworking"),
   ("meta",Node.ofFields [("msg",.scalar "GBC with large max hop limit is detected."),
     ("sid",.scalar "2"),("rev",.scalar "1")]),
   ("ht",.scalar "GBC"),("mhl",.scalar "3")]

def largeHopLimitSignature : Signature where
  action := .drop
  protocol := .geoNetworking
  metaData := ⟨"GBC with large max hop limit is detected.",2,1⟩
  patterns := ((∅ : StdMap String PatternType).insert "ht" (.string "GBC")).insert "mhl" (.int 3)

def ruleDocument (rules : List Node) : Node := Node.ofFields [("rules",.sequence rules)]

theorem read_largeHopLimitRule :
    read decimalConversions (ruleDocument [largeHopLimitRule]) ∅ =
      .ok (.success,appendSignature ∅ .geoNetworking largeHopLimitSignature) := by
  rfl

theorem read_accepts_largeHopLimitRule :
    DocumentGrammar (ruleDocument [largeHopLimitRule]) ∧
      ∃ rules, (ruleDocument [largeHopLimitRule]).field "rules" = .sequence rules ∧
        ExtendedBy decimalConversions rules ∅
          (appendSignature ∅ .geoNetworking largeHopLimitSignature) := by
  have h := read_accepts_grammar decimalConversions (ruleDocument [largeHopLimitRule]) ∅
    (by rw [read_largeHopLimitRule]; simp)
  exact ⟨h.1.mp ⟨_,read_largeHopLimitRule⟩,h.2 _ read_largeHopLimitRule⟩

theorem rulesOf_eq_nil_iff (p : Protocol) (rules : List Node) :
    rulesOf p rules = [] ↔ ∀ rule ∈ rules, ruleProtocol rule ≠ some p := by
  simp [rulesOf]

theorem lookup_eq_of_of_eq {m m' : SignaturesType} {p : Protocol} (hof : m'.of p = m.of p)
    (hmem : p ∈ m' ↔ p ∈ m) : m'.lookup p = m.lookup p := by
  by_cases h : p ∈ m
  · obtain ⟨l,hl⟩ := Finmap.mem_iff.mp h
    obtain ⟨l',hl'⟩ := Finmap.mem_iff.mp (hmem.mpr h)
    simp only [SignaturesType.of,hl,hl',Option.getD_some] at hof
    rw [hl,hl',hof]
  · have h' : p ∉ m' := fun hp => h (hmem.mp hp)
    rw [Finmap.lookup_eq_none.mpr h,Finmap.lookup_eq_none.mpr h']

theorem ExtendedBy.eq_iff {y : Conversions} {rules : List Node} {m m' : SignaturesType}
    (h : ExtendedBy y rules m m') :
    m' = m ↔ ∀ rule ∈ rules, ruleProtocol rule ≠ some .geoNetworking ∧
      ruleProtocol rule ≠ some .facility := by
  constructor
  · intro heq rule hrule
    subst heq
    have hnone : ∀ p, p = .geoNetworking ∨ p = .facility → ruleProtocol rule ≠ some p := by
      intro p hp
      obtain ⟨sigs,hsigs,hof,_⟩ := h.loaded p hp
      have hnil : sigs = [] := by simpa using hof
      subst hnil
      have hrules : rulesOf p rules = [] := by
        cases hr : rulesOf p rules with
        | nil => rfl
        | cons r rs => rw [hr] at hsigs; cases hsigs
      exact (rulesOf_eq_nil_iff p rules).mp hrules rule hrule
    exact ⟨hnone _ (.inl rfl),hnone _ (.inr rfl)⟩
  · intro hnone
    have hsame : ∀ p, p = .geoNetworking ∨ p = .facility → m'.lookup p = m.lookup p := by
      intro p hp
      obtain ⟨sigs,hsigs,hof,hmem⟩ := h.loaded p hp
      have hrules : rulesOf p rules = [] := by
        rw [rulesOf_eq_nil_iff]
        intro rule hrule
        rcases hp with rfl | rfl
        · exact (hnone rule hrule).1
        · exact (hnone rule hrule).2
      rw [hrules] at hsigs hmem
      cases hsigs
      exact lookup_eq_of_of_eq (by simpa using hof) (by simpa using hmem)
    apply Finmap.ext_lookup
    intro p
    by_cases hgeo : p = .geoNetworking
    · exact hsame p (.inl hgeo)
    by_cases hfac : p = .facility
    · exact hsame p (.inr hfac)
    · exact h.others p hgeo hfac

/-- A load that fails leaves the signatures of the rules before the first bad one. -/
theorem read_failure_keeps_prefix (y : Conversions) (ruleset : Node) (m m' : SignaturesType)
    (code : RuleReaderStatusCode) (h : read y ruleset m = .ok (code,m'))
    (hc : code ≠ .success) :
    ∃ pre, ((ruleset.ruleSequence = none ∧ pre = []) ∨
        ∃ bad post, ruleset.ruleSequence = some (pre ++ bad :: post) ∧
          (∀ rule ∈ pre, RuleGrammar rule) ∧ ¬ RuleGrammar bad) ∧
      ExtendedBy y pre m m' ∧
      (m' = m ↔ ∀ rule ∈ pre, ruleProtocol rule ≠ some .geoNetworking ∧
        ruleProtocol rule ≠ some .facility) := by
  obtain ⟨pre,hpre,hext⟩ := read_failed h hc
  exact ⟨pre,hpre,hext,hext.eq_iff⟩

def brokenDocument : Node := ruleDocument [largeHopLimitRule,.map []]

theorem read_brokenDocument :
    read decimalConversions brokenDocument ∅ =
      .ok (.undefinedAction,appendSignature ∅ .geoNetworking largeHopLimitSignature) := by
  rfl

theorem read_failure_keeps_largeHopLimitRule :
    ∃ pre, ((brokenDocument.ruleSequence = none ∧ pre = []) ∨
        ∃ bad post, brokenDocument.ruleSequence = some (pre ++ bad :: post) ∧
          (∀ rule ∈ pre, RuleGrammar rule) ∧ ¬ RuleGrammar bad) ∧
      ExtendedBy decimalConversions pre ∅
        (appendSignature ∅ .geoNetworking largeHopLimitSignature) := by
  obtain ⟨pre,hpre,hext,_⟩ := read_failure_keeps_prefix decimalConversions brokenDocument ∅ _
    .undefinedAction read_brokenDocument (by decide)
  exact ⟨pre,hpre,hext⟩

theorem read_failure_can_change_map :
    ¬ ∀ (y : Conversions) (ruleset : Node) (m m' : SignaturesType)
      (code : RuleReaderStatusCode), read y ruleset m = .ok (code,m') → code ≠ .success →
        m' = m := by
  intro h
  have heq := h decimalConversions brokenDocument ∅ _ .undefinedAction read_brokenDocument
    (by decide)
  have hmem : Protocol.geoNetworking ∈
      appendSignature ∅ .geoNetworking largeHopLimitSignature :=
    (mem_appendSignature _ _ _ _).mpr (.inl rfl)
  rw [heq] at hmem
  exact Finmap.notMem_empty hmem

end Mitvane
