import Mitvane.RuleGrammar

set_option autoImplicit false

namespace Mitvane
open PartialRun

/-- The failures a reader may end with if `G` is the grammar it checks: a status
only when the grammar is violated, an exception other than a conversion likewise. -/
def Blames {σ : Type} (G : Prop) : Failure σ → Prop
  | .status _ => ¬ G
  | .exception e => e = .badConversion ∨ ¬ G

theorem Blames.imp {σ : Type} {G G' : Prop} {e : Failure σ} (h : Blames G e) (hg : G' → G) :
    Blames G' e := by
  cases e with
  | status code => exact fun g => h (hg g)
  | exception e => exact Or.imp_right (fun hn g => hn (hg g)) h

section Checks
variable {σ : Type} {G : Prop}

theorem meets_subscript {node : Node} {key : String} (h : G → node.isScalar = false) :
    Meets (liftYaml (node.subscript key) : Except (Failure σ) Node)
      (fun value => value = node.field key) (Blames G) := by
  apply Meets.mapError
  cases node with
  | scalar text =>
    right
    intro hg
    have hs := h hg
    simp [Node.isScalar] at hs
  | _ => rfl

theorem meets_asString (node : Node) :
    Meets (liftYaml node.asString : Except (Failure σ) String)
      (fun text => node.asString = .ok text) (Blames G) := by
  apply Meets.mapError
  cases h : node.asString with
  | ok text => rfl
  | error e => exact .inl (Node.asString_eq_error h)

theorem meets_asNumber {α : Type} (convert : String → Option α) (node : Node) :
    Meets (liftYaml (node.asNumber convert) : Except (Failure σ) α)
      (fun n => ∃ text, node = .scalar text ∧ convert text = some n) (Blames G) := by
  apply Meets.mapError
  cases h : node.asNumber convert with
  | ok n => exact Node.asNumber_eq_ok.mp h
  | error e => exact .inl (Node.asNumber_eq_error h)

theorem meets_require {c : Bool} {code : σ} (h : G → c = true) :
    Meets (require c (.status code : Failure σ)) (fun _ => c = true) (Blames G) := by
  apply Meets.require
  intro hc hg
  rw [h hg] at hc
  cases hc

theorem meets_requireScalar {node : Node} {undefinedText badText : String}
    (h : G → ∃ text, node = .scalar text) :
    Meets (requireScalar node undefinedText badText)
      (fun _ => node.isScalar = true) (Blames G) := by
  refine Meets.bind (meets_require ?_) (fun _ _ => meets_require ?_)
  · intro hg
    obtain ⟨text,rfl⟩ := h hg
    rfl
  · intro hg
    obtain ⟨text,rfl⟩ := h hg
    rfl

end Checks

theorem meets_checkedText {G : Prop} {node : Node} {names : List String} {check : String → Bool}
    {message : String} {Q : PatternType → Prop} (hcheck : ∀ text, check text = true ↔ text ∈ names)
    (hnull : "null" ∉ names) (h : G → ∃ text ∈ names, node = .scalar text)
    (hQ : ∀ text ∈ names, node = .scalar text → Q (.string text)) :
    Meets (do
        let text ← liftYaml node.asString
        require (check text) (.status message)
        pure (.string text) : Except (Failure String) PatternType) Q (Blames G) := by
  refine Meets.bind (meets_asString node) (fun text ht => ?_)
  refine Meets.bind (meets_require ?_) (fun _ hc => ?_)
  · intro hg
    obtain ⟨t,hmem,rfl⟩ := h hg
    cases ht
    exact (hcheck _).mpr hmem
  · have hmem := (hcheck text).mp hc
    cases node with
    | scalar t => cases ht; exact hQ _ hmem rfl
    | null => cases ht; exact absurd hmem hnull
    | _ => cases ht

theorem readNh_meets (y : Conversions) {G : Prop} {node : Node}
    (h : G → ∃ text ∈ ["common","secure"], node = .scalar text) :
    Meets (readNh node) (fun p => Spells y "nh" node p) (Blames G) := by
  refine meets_checkedText (by simp) (by simp) h ?_
  rintro text hmem rfl
  exact Spells.nh hmem

theorem readHt_meets (y : Conversions) {G : Prop} {node : Node}
    (h : G → ∃ text ∈ ["TSB","GBC","SHB"], node = .scalar text) :
    Meets (readHt node) (fun p => Spells y "ht" node p) (Blames G) := by
  refine meets_checkedText (by simp [or_assoc]) (by simp) h ?_
  rintro text hmem rfl
  exact Spells.ht hmem

theorem readMhl_meets (y : Conversions) {G : Prop} (node : Node) :
    Meets (readMhl y node) (fun p => Spells y "mhl" node p) (Blames G) := by
  refine Meets.bind (meets_asNumber y.int node) (fun n hn => ?_)
  obtain ⟨text,rfl,hconv⟩ := hn
  exact Spells.mhl hconv

theorem meets_distances (y : Conversions) {G : Prop} {node : Node} (hs : node.isScalar = false)
    {fieldA fieldB undefinedA badA undefinedB badB : String}
    (hA : G → ∃ text, node.field fieldA = .scalar text)
    (hB : G → ∃ text, node.field fieldB = .scalar text) {build : Int → Int → PatternType}
    {Q : PatternType → Prop}
    (hQ : ∀ ta tb a b, node.field fieldA = .scalar ta → node.field fieldB = .scalar tb →
      y.int ta = some a → y.int tb = some b → Q (build a b)) :
    Meets (do
        let distanceANode ← liftYaml (node.subscript fieldA)
        requireScalar distanceANode undefinedA badA
        let distanceBNode ← liftYaml (node.subscript fieldB)
        requireScalar distanceBNode undefinedB badB
        let distanceA ← liftYaml (distanceANode.asNumber y.int)
        let distanceB ← liftYaml (distanceBNode.asNumber y.int)
        pure (build distanceA distanceB) : Except (Failure String) PatternType) Q (Blames G) := by
  refine Meets.bind (meets_subscript (fun _ => hs)) (fun a ha => ?_)
  subst ha
  refine Meets.bind (meets_requireScalar hA) (fun _ _ => ?_)
  refine Meets.bind (meets_subscript (fun _ => hs)) (fun b hb => ?_)
  subst hb
  refine Meets.bind (meets_requireScalar hB) (fun _ _ => ?_)
  refine Meets.bind (meets_asNumber y.int _) (fun a ha => ?_)
  refine Meets.bind (meets_asNumber y.int _) (fun b hb => ?_)
  obtain ⟨ta,hta,ha⟩ := ha
  obtain ⟨tb,htb,hb⟩ := hb
  exact hQ ta tb a b hta htb ha hb

theorem readDestinationArea_meets (y : Conversions) {G : Prop} {node : Node}
    (h : G → DestinationAreaGrammar node) :
    Meets (readDestinationArea y node)
      (fun p => Spells y "destination_area" node p) (Blames G) := by
  refine Meets.bind (meets_require (fun hg => (h hg).isMap)) (fun _ hm => ?_)
  have hs := Node.isScalar_false_of_isMap hm
  refine meets_distances y hs (fun hg => (h hg).distanceA) (fun hg => (h hg).distanceB) ?_
  intro ta tb a b hta htb ha hb
  exact Spells.destinationArea hta htb ha hb

theorem readAllowedSoRange_meets (y : Conversions) {G : Prop} {node : Node}
    (h : G → AllowedSoRangeGrammar node) :
    Meets (readAllowedSoRange y node)
      (fun p => Spells y "allowed_so_range" node p) (Blames G) := by
  refine Meets.bind (meets_require (fun hg => (h hg).isMap)) (fun _ hm => ?_)
  have hs := Node.isScalar_false_of_isMap hm
  have hshape : G → ∃ text, node.field "shape" = .scalar text := fun hg => by
    obtain ⟨text,ht,_⟩ := (h hg).shape
    exact ⟨text,ht⟩
  refine Meets.bind (meets_subscript (fun _ => hs)) (fun s hs' => ?_)
  subst hs'
  refine Meets.bind (meets_requireScalar hshape) (fun _ hsc => ?_)
  refine Meets.bind (meets_asString _) (fun text htext => ?_)
  have hnode := Node.asString_scalar hsc htext
  have hcircle : G → lower text = "circle" := fun hg => by
    obtain ⟨t,ht,hl⟩ := (h hg).shape
    rw [hnode] at ht
    cases ht
    exact hl
  refine Meets.bind (meets_require (fun hg => by simpa using hcircle hg)) (fun _ hl => ?_)
  refine meets_distances y hs (fun hg => (h hg).distanceA) (fun hg => (h hg).distanceB) ?_
  intro ta tb a b hta htb ha hb
  exact Spells.allowedSoRange hnode (by simpa using hl) hta htb ha hb

theorem readGeonetKeyword_meets (y : Conversions) {G : Prop} {key : String} {node : Node}
    (hkey : key ∈ conditionKeywords) (h : G → KeywordGrammar key node) :
    Meets (readGeonetKeyword y key node)
      (fun r => ∃ p, r = some p ∧ Spells y key node p) (Blames G) := by
  have lift : ∀ {x : Except (Failure String) PatternType},
      Meets x (fun p => Spells y key node p) (Blames G) →
      Meets (some <$> x) (fun r => ∃ p, r = some p ∧ Spells y key node p) (Blames G) :=
    fun hx => Meets.map (hx.mono (fun p hp => ⟨p,rfl,hp⟩) (fun _ he => he))
  simp only [conditionKeywords,List.mem_cons,List.not_mem_nil,or_false] at hkey
  rcases hkey with rfl | rfl | rfl | rfl | rfl
  · exact lift (readNh_meets y (fun hg => (h hg).nh rfl))
  · exact lift (readHt_meets y (fun hg => (h hg).ht rfl))
  · exact lift (readMhl_meets y node)
  · exact lift (readDestinationArea_meets y (fun hg => (h hg).destinationArea rfl))
  · exact lift (readAllowedSoRange_meets y (fun hg => (h hg).allowedSoRange rfl))

theorem Carries.setPattern {y : Conversions} {rule : Node} {done : List String} {sig : Signature}
    (h : Carries y rule done sig) {key : String} {p : PatternType}
    (hdef : (rule.field key).isDefined = true) (hp : Spells y key (rule.field key) p) :
    Carries y rule (done ++ [key]) (sig.setPattern key p) := by
  constructor
  · intro k
    simp only [Signature.setPattern,Finmap.mem_insert,h.keys,List.mem_append,List.mem_singleton]
    constructor
    · intro hcase
      rcases hcase with rfl | ⟨hk,hd⟩
      · exact ⟨.inr rfl,hdef⟩
      · exact ⟨.inl hk,hd⟩
    · intro hcase
      rcases hcase with ⟨hk | rfl,hd⟩
      · exact .inr ⟨hk,hd⟩
      · exact .inl rfl
  · intro k q hq
    simp only [Signature.setPattern,StdMap.lookup_insert_eq] at hq
    by_cases hk : k = key
    · subst k
      simp only [if_true,Option.some.injEq] at hq
      exact hq ▸ hp
    · exact h.values k q (by simpa [hk] using hq)

theorem Carries.skip {y : Conversions} {rule : Node} {done : List String} {sig : Signature}
    (h : Carries y rule done sig) {key : String} (hdef : (rule.field key).isDefined = false) :
    Carries y rule (done ++ [key]) sig := by
  refine ⟨fun k => ?_,h.values⟩
  rw [h.keys,List.mem_append,List.mem_singleton]
  constructor
  · exact fun ⟨hk,hd⟩ => ⟨.inl hk,hd⟩
  · intro hcase
    rcases hcase with ⟨hk | rfl,hd⟩
    · exact ⟨hk,hd⟩
    · rw [hdef] at hd; cases hd

theorem readKeywords_geonet (y : Conversions) {G : Prop} {rule : Node}
    (hs : rule.isScalar = false)
    (h : G → ∀ key ∈ conditionKeywords, (rule.field key).isDefined = true →
      KeywordGrammar key (rule.field key))
    (keys done : List String) (hkeys : ∀ key ∈ keys, key ∈ conditionKeywords) (acc : PatternRead)
    (hacc : Carries y rule done acc.sig) :
    Meets (readKeywords (readGeonetKeyword y) rule keys acc)
      (fun r => Carries y rule (done ++ keys) r.sig ∧
        r.sig = { acc.sig with patterns := r.sig.patterns }) (Blames G) := by
  induction keys generalizing done acc with
  | nil => exact ⟨by simpa using hacc,rfl⟩
  | cons key keys ih =>
    have hkey := hkeys key (by simp)
    have hrest : ∀ k ∈ keys, k ∈ conditionKeywords := fun k hk => hkeys k (by simp [hk])
    rw [List.append_cons]
    refine Meets.bind (meets_subscript (fun _ => hs)) (fun node hnode => ?_)
    subst hnode
    by_cases hdef : (rule.field key).isDefined = true
    · simp only [hdef,if_true]
      have hread := readGeonetKeyword_meets y hkey (fun hg => h hg key hkey hdef)
      refine Meets.bind (P := fun acc' => Carries y rule (done ++ [key]) acc'.sig ∧
        acc'.sig = { acc.sig with patterns := acc'.sig.patterns }) ?_ (fun acc' hacc' => ?_)
      · apply Meets.map
        refine hread.mono ?_ (fun _ he => he)
        intro r hcase
        obtain ⟨p,rfl,hp⟩ := hcase
        exact ⟨hacc.setPattern hdef hp,rfl⟩
      · refine (ih (done ++ [key]) hrest acc' hacc'.1).mono ?_ (fun _ he => he)
        intro r hcase
        obtain ⟨hr,heq⟩ := hcase
        exact ⟨hr,by rw [heq,hacc'.2]⟩
    · simp only [hdef]
      exact ih (done ++ [key]) hrest acc (hacc.skip (by simpa using hdef))

theorem carries_nil (y : Conversions) (rule : Node) {sig : Signature} (h : sig.patterns = ∅) :
    Carries y rule [] sig := by
  constructor <;> intro k <;> simp [h,Finmap.notMem_empty]

theorem readGeonetPattern_meets (y : Conversions) {G : Prop} {rule : Node}
    (hs : rule.isScalar = false)
    (h : G → ∀ key ∈ conditionKeywords, (rule.field key).isDefined = true →
      KeywordGrammar key (rule.field key)) {sig : Signature} (hsig : sig.patterns = ∅) :
    Meets (readGeonetPattern y rule sig)
      (fun r => Carries y rule conditionKeywords r.sig ∧
        r.sig = { sig with patterns := r.sig.patterns }) (Blames G) := by
  rw [readGeonetPattern,geonetKeywords_eq]
  exact readKeywords_geonet y hs h conditionKeywords [] (fun _ hk => hk) ⟨sig,[]⟩
    (carries_nil y rule hsig)

/-- The keyword table it walks does not contain `allowed_ids`, so nothing is stored. -/
theorem readFacilityPattern_ok (y : Conversions) {rule : Node} (hs : rule.isScalar = false)
    (sig : Signature) : ∃ r, readFacilityPattern y rule sig = .ok r ∧ r.sig = sig := by
  have loop : ∀ (keys : List String) (acc : PatternRead), "allowed_ids" ∉ keys →
      ∃ r, readKeywords (readFacilityKeyword y) rule keys acc = .ok r ∧ r.sig = acc.sig := by
    intro keys
    induction keys with
    | nil => exact fun acc _ => ⟨acc,rfl,rfl⟩
    | cons key keys ih =>
      intro acc hkeys
      simp only [List.mem_cons,not_or] at hkeys
      have hnode : rule.subscript key = .ok (rule.field key) := Node.subscript_eq_ok.mpr ⟨hs,rfl⟩
      by_cases hdef : (rule.field key).isDefined = true
      · obtain ⟨r,hr,hsig⟩ := ih (acc.store key none) hkeys.2
        exact ⟨r,by simp [readKeywords,hnode,hdef,readFacilityKeyword,Ne.symm hkeys.1,hr],hsig⟩
      · obtain ⟨r,hr,hsig⟩ := ih acc hkeys.2
        exact ⟨r,by simp [readKeywords,hnode,hdef,hr],hsig⟩
  exact loop geonetKeywords ⟨sig,[]⟩ (by decide)

theorem lookup_eq_none_of_notMem {α : Type} {names : List (String × α)} {text : String}
    (h : text ∉ names.map Prod.fst) : names.lookup text = none := by
  rw [List.lookup_eq_none_iff]
  intro entry hentry
  have hne : text ≠ entry.1 := fun heq => h (heq ▸ List.mem_map_of_mem hentry)
  simpa using hne

theorem actionNames_lookup (text : String) :
    actionNames.lookup text =
      if actionOfText text = .notSupportedAction then none else some (actionOfText text) := by
  by_cases h : text ∈ actionNames.map Prod.fst
  · simp only [actionNames,List.map_cons,List.map_nil,List.mem_cons,List.not_mem_nil,
      or_false] at h
    rcases h with rfl | rfl <;> decide
  · rw [lookup_eq_none_of_notMem h]
    simp only [actionNames,List.map_cons,List.map_nil,List.mem_cons,List.not_mem_nil,
      or_false,not_or] at h
    simp [actionOfText,h]

theorem protocolAliases_lookup (text : String) :
    protocolAliases.lookup text =
      if protocolOfText text = .notSupportedProtocol then none
      else some (protocolOfText text) := by
  by_cases h : text ∈ protocolAliases.map Prod.fst
  · simp only [protocolAliases,List.map_cons,List.map_nil,List.mem_cons,List.not_mem_nil,
      or_false] at h
    rcases h with rfl | rfl | rfl | rfl | rfl | rfl | rfl | rfl | rfl | rfl | rfl | rfl | rfl |
      rfl <;> decide
  · rw [lookup_eq_none_of_notMem h]
    simp only [protocolAliases,List.map_cons,List.map_nil,List.mem_cons,List.not_mem_nil,
      or_false,not_or] at h
    simp [protocolOfText,h]

theorem readAction_meets {σ : Type} {G : Prop} {node : Node} (hs : node.isScalar = true) :
    Meets (liftYaml (readAction node) : Except (Failure σ) Action)
      (fun a => node.named actionNames = if a = .notSupportedAction then none else some a)
      (Blames G) := by
  obtain ⟨text,rfl⟩ := Node.isScalar_iff.mp hs
  exact actionNames_lookup (lower text)

theorem readProtocol_meets {σ : Type} {G : Prop} {node : Node} (hs : node.isScalar = true) :
    Meets (liftYaml (readProtocol node) : Except (Failure σ) Protocol)
      (fun p => node.named protocolAliases = if p = .notSupportedProtocol then none else some p)
      (Blames G) := by
  obtain ⟨text,rfl⟩ := Node.isScalar_iff.mp hs
  exact protocolAliases_lookup (lower text)

theorem readMetadata_meets (y : Conversions) {G : Prop} {node : Node} (hm : node.isMap = true)
    (h : G → MetaGrammar node) :
    Meets (readMetadata y node)
      (fun m => node.field "msg" = .scalar m.msg ∧
        (∃ text, node.field "sid" = .scalar text ∧ y.uint32 text = some m.sid) ∧
        ∃ text, node.field "rev" = .scalar text ∧ y.uint16 text = some m.rev) (Blames G) := by
  have hs := Node.isScalar_false_of_isMap hm
  have hdef : ∀ {key : String}, (G → ScalarField node key) →
      G → (node.field key).isDefined = true := by
    intro key hk hg
    obtain ⟨text,ht⟩ := hk hg
    rw [ht]; rfl
  have hscalar : ∀ {key : String}, (G → ScalarField node key) →
      G → (node.field key).isScalar = true := fun hk hg => Node.isScalar_iff.mpr (hk hg)
  refine Meets.bind (meets_subscript (fun _ => hs)) (fun msgNode hmsg => ?_)
  subst hmsg
  refine Meets.bind (meets_require (hdef (fun hg => (h hg).msg))) (fun _ _ => ?_)
  refine Meets.bind (meets_require (hscalar (fun hg => (h hg).msg))) (fun _ hsc => ?_)
  refine Meets.bind (meets_asString _) (fun msg htext => ?_)
  have hmsg := Node.asString_scalar hsc htext
  refine Meets.bind (meets_subscript (fun _ => hs)) (fun sidNode hsid => ?_)
  subst hsid
  refine Meets.bind (meets_require (hdef (fun hg => (h hg).sid))) (fun _ _ => ?_)
  refine Meets.bind (meets_require (hscalar (fun hg => (h hg).sid))) (fun _ _ => ?_)
  refine Meets.bind (meets_asNumber y.uint32 _) (fun sid hsid => ?_)
  refine Meets.bind (meets_subscript (fun _ => hs)) (fun revNode hrev => ?_)
  subst hrev
  refine Meets.bind (meets_require (hdef (fun hg => (h hg).rev))) (fun _ _ => ?_)
  refine Meets.bind (meets_require (hscalar (fun hg => (h hg).rev))) (fun _ _ => ?_)
  refine Meets.bind (meets_asNumber y.uint16 _) (fun rev hrev => ?_)
  exact ⟨hmsg,hsid,hrev⟩

theorem meets_collapse {σ α : Type} {G : Prop} {code : RuleReaderStatusCode}
    {x : Except (Failure σ) α} {Q : α → Prop} (h : Meets x Q (Blames G)) :
    Meets (collapse code x) Q (Blames G) := by
  apply Meets.mapError
  refine h.mono (fun _ hq => hq) ?_
  intro e he
  cases e <;> exact he

theorem Spells.keywordGrammar {y : Conversions} {key : String} {node : Node} {p : PatternType}
    (h : Spells y key node p) : KeywordGrammar key node := by
  cases h with
  | nh ht => exact ⟨fun _ => ⟨_,ht,rfl⟩,by simp,by simp,by simp⟩
  | ht ht => exact ⟨by simp,fun _ => ⟨_,ht,rfl⟩,by simp,by simp⟩
  | mhl hn => constructor <;> simp
  | destinationArea ha hb _ _ =>
    have hg : DestinationAreaGrammar node := ⟨Node.isMap_of_field_scalar ha,⟨_,ha⟩,⟨_,hb⟩⟩
    constructor <;> simp [hg]
  | allowedSoRange hs hl ha hb _ _ =>
    have hg : AllowedSoRangeGrammar node :=
      ⟨Node.isMap_of_field_scalar ha,⟨_,hs,hl⟩,⟨_,ha⟩,⟨_,hb⟩⟩
    constructor <;> simp [hg]

structure HeadDenotes (y : Conversions) (rule : Node) (sig : Signature) : Prop where
  action : ruleAction rule = some sig.action
  protocol : ruleProtocol rule = some sig.protocol
  msg : (rule.field "meta").field "msg" = .scalar sig.metaData.msg
  sid : ∃ text, (rule.field "meta").field "sid" = .scalar text ∧
    y.uint32 text = some sig.metaData.sid
  rev : ∃ text, (rule.field "meta").field "rev" = .scalar text ∧
    y.uint16 text = some sig.metaData.rev
  patterns : sig.patterns = ∅

theorem HeadDenotes.denotes {y : Conversions} {rule : Node} {sig sig' : Signature}
    (h : HeadDenotes y rule sig) (heq : sig' = { sig with patterns := sig'.patterns })
    (hc : Carries y rule (if sig.protocol = .geoNetworking then conditionKeywords else []) sig') :
    Denotes y rule sig' := by
  have hp : sig'.protocol = sig.protocol := by rw [heq]
  have hm : sig'.metaData = sig.metaData := by rw [heq]
  have ha : sig'.action = sig.action := by rw [heq]
  exact ⟨by rw [ha,h.action],by rw [hp,h.protocol],by rw [hm,h.msg],by rw [hm]; exact h.sid,
    by rw [hm]; exact h.rev,by rw [hp]; exact hc⟩

theorem readPatterns_meets (y : Conversions) {rule : Node} (hs : rule.isScalar = false)
    {sig : Signature} (h : HeadDenotes y rule sig) :
    Meets (readPatterns y rule sig) (Denotes y rule) (Blames (RuleGrammar rule)) := by
  unfold readPatterns
  cases hp : sig.protocol with
  | geoNetworking =>
    have hg : RuleGrammar rule → _ := fun g => g.geonet (by rw [h.protocol,hp])
    apply Meets.map
    refine (meets_collapse (readGeonetPattern_meets y hs hg h.patterns)).mono ?_ (fun _ he => he)
    intro r hcase
    obtain ⟨hc,heq⟩ := hcase
    exact h.denotes heq (by simpa [hp] using hc)
  | facility =>
    obtain ⟨r,hr,hsig⟩ := readFacilityPattern_ok y hs sig
    rw [hr]
    apply Meets.map
    show Denotes y rule r.sig
    rw [hsig]
    exact h.denotes rfl (by simpa [hp] using carries_nil y rule h.patterns)
  | _ => exact h.denotes rfl (by simpa [hp] using carries_nil y rule h.patterns)

theorem Denotes.spells {y : Conversions} {rule : Node} {sig : Signature}
    (h : Denotes y rule sig) (hp : ruleProtocol rule = some .geoNetworking) {key : String}
    (hkey : key ∈ conditionKeywords) (hdef : (rule.field key).isDefined = true) :
    ∃ p, Spells y key (rule.field key) p := by
  have hgeo : sig.protocol = .geoNetworking := Option.some.inj (h.protocol.symm.trans hp)
  have hc := h.patterns
  rw [if_pos hgeo] at hc
  obtain ⟨p,hlookup⟩ := Finmap.mem_iff.mp ((hc.keys key).mpr ⟨hkey,hdef⟩)
  exact ⟨p,hc.values key p hlookup⟩

theorem Denotes.ruleGrammar {y : Conversions} {rule : Node} {sig : Signature}
    (h : Denotes y rule sig) : RuleGrammar rule where
  action := ⟨_,h.action⟩
  protocol := ⟨_,h.protocol⟩
  metaData := by
    obtain ⟨ts,hsid,_⟩ := h.sid
    obtain ⟨tr,hrev,_⟩ := h.rev
    exact ⟨Node.isMap_of_field_scalar h.msg,⟨_,h.msg⟩,⟨ts,hsid⟩,⟨tr,hrev⟩⟩
  geonet := by
    intro hp key hkey hdef
    obtain ⟨p,hspells⟩ := h.spells hp hkey hdef
    exact hspells.keywordGrammar

theorem named_isScalar {α : Type} {names : List (String × α)} {node : Node} {a : α}
    (h : node.named names = some a) : node.isScalar = true := by
  cases node <;> simp_all [Node.named,Node.isScalar]

theorem named_isDefined {α : Type} {names : List (String × α)} {node : Node} {a : α}
    (h : node.named names = some a) : node.isDefined = true := by
  cases node <;> simp_all [Node.named,Node.isDefined]

theorem isScalar_false_of_ruleAction {rule : Node} {a : Action} (h : ruleAction rule = some a) :
    rule.isScalar = false := by
  cases rule with
  | scalar text => simp [ruleAction,Node.field,Node.named] at h
  | _ => rfl

structure HeadGrammar (rule : Node) : Prop where
  action : ∃ a, ruleAction rule = some a
  protocol : ∃ p, ruleProtocol rule = some p
  metaData : MetaGrammar (rule.field "meta")

theorem RuleGrammar.head {rule : Node} (g : RuleGrammar rule) : HeadGrammar rule :=
  ⟨g.action,g.protocol,g.metaData⟩

theorem readHead_meets (y : Conversions) (rule : Node) :
    Meets (readHead y rule) (HeadDenotes y rule) (Blames (HeadGrammar rule)) := by
  refine Meets.bind (P := fun node => node = rule.field "action" ∧ rule.isScalar = false) ?_
    (fun actionNode ha => ?_)
  · apply Meets.mapError
    cases h : rule.subscript "action" with
    | ok node => exact ⟨(Node.subscript_eq_ok.mp h).2,(Node.subscript_eq_ok.mp h).1⟩
    | error e =>
      refine .inr (fun g => ?_)
      have hs := (Node.subscript_eq_error.mp h).1
      obtain ⟨a,ha⟩ := g.action
      rw [isScalar_false_of_ruleAction ha] at hs
      cases hs
  obtain ⟨rfl,hs⟩ := ha
  refine Meets.bind (meets_require (fun g => g.action.elim fun _ => named_isDefined))
    (fun _ _ => ?_)
  refine Meets.bind (meets_require (fun g => g.action.elim fun _ => named_isScalar))
    (fun _ hsa => ?_)
  refine Meets.bind (readAction_meets hsa) (fun action haction => ?_)
  have hact : HeadGrammar rule → action ≠ .notSupportedAction := fun g hn => by
    obtain ⟨a,ha⟩ := g.action
    simp [ruleAction,haction,hn] at ha
  refine Meets.bind (meets_require (fun g => by simpa using hact g)) (fun _ hna => ?_)
  refine Meets.bind (meets_subscript (fun _ => hs)) (fun protocolNode hp => ?_)
  subst hp
  refine Meets.bind (meets_require (fun g => g.protocol.elim fun _ => named_isDefined))
    (fun _ _ => ?_)
  refine Meets.bind (meets_require (fun g => g.protocol.elim fun _ => named_isScalar))
    (fun _ hsp => ?_)
  refine Meets.bind (readProtocol_meets hsp) (fun protocol hprotocol => ?_)
  have hpro : HeadGrammar rule → protocol ≠ .notSupportedProtocol := fun g hn => by
    obtain ⟨p,hp⟩ := g.protocol
    simp [ruleProtocol,hprotocol,hn] at hp
  refine Meets.bind (meets_require (fun g => by simpa using hpro g)) (fun _ hnp => ?_)
  refine Meets.bind (meets_subscript (fun _ => hs)) (fun metaNode hm => ?_)
  subst hm
  refine Meets.bind (meets_require (fun g => ?_)) (fun _ _ => ?_)
  · have hmap := g.metaData.isMap
    cases hnode : rule.field "meta" <;> simp_all [Node.isMap,Node.isDefined]
  refine Meets.bind (meets_require (fun g => g.metaData.isMap)) (fun _ hmap => ?_)
  refine Meets.bind (meets_collapse (readMetadata_meets y hmap (fun g => g.metaData)))
    (fun m hmeta => ?_)
  obtain ⟨hmsg,hsid,hrev⟩ := hmeta
  refine ⟨?_,?_,hmsg,hsid,hrev,rfl⟩
  · simpa [ruleAction,haction] using hna
  · simpa [ruleProtocol,hprotocol] using hnp

/-- One rule: what is accepted is well formed and denotes the signature that is
returned, and a well formed rule only fails on a number. -/
theorem readRule_meets (y : Conversions) (rule : Node) :
    Meets (readRule y rule) (Denotes y rule) (Blames (RuleGrammar rule)) := by
  have hhead := (readHead_meets y rule).mono (fun _ h => h) (fun _ he => he.imp RuleGrammar.head)
  exact Meets.bind hhead
    (fun sig hsig => readPatterns_meets y (isScalar_false_of_ruleAction hsig.action) hsig)

end Mitvane
