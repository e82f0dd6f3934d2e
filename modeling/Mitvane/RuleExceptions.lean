import Mitvane.RuleFile

set_option autoImplicit false

namespace Mitvane
open PartialRun

/-- The failures of a reader in which a conversion throws exactly under `R`. -/
def Throws {σ : Type} (R : Prop) : Failure σ → Prop
  | .status _ => ¬ R
  | .exception _ => R

theorem exception_iff {σ α : Type} {R : Prop} {x : Except (Failure σ) α}
    (h : Meets x (fun _ => ¬ R) (Throws R)) : (∃ e, x = .error (.exception e)) ↔ R := by
  cases x with
  | ok a =>
    have hr : ¬ R := h
    simp [hr]
  | error e =>
    cases e with
    | status code =>
      have hr : ¬ R := h
      simp [hr]
    | exception e =>
      have hr : R := h
      simp [hr]

section Checks
variable {σ : Type} {R : Prop}

theorem throws_require {c : Bool} {code : σ} (h : R → c = true) :
    Meets (require c (.status code : Failure σ)) (fun _ => c = true) (Throws R) := by
  apply Meets.require
  intro hc hr
  rw [h hr] at hc
  cases hc

theorem throws_subscript {node : Node} {key : String} (h : node.isScalar = false) :
    Meets (liftYaml (node.subscript key) : Except (Failure σ) Node)
      (fun value => value = node.field key) (Throws R) := by
  rw [Node.subscript_eq_ok.mpr ⟨h,rfl⟩]
  rfl

theorem throws_asNumber {α : Type} {convert : String → Option α} {text : String}
    (h : convert text = none → R) :
    Meets (liftYaml ((Node.scalar text).asNumber convert) : Except (Failure σ) α)
      (fun n => convert text = some n) (Throws R) := by
  apply Meets.mapError
  cases hx : (Node.scalar text).asNumber convert with
  | ok n =>
    obtain ⟨text',htext,hn⟩ := Node.asNumber_eq_ok.mp hx
    cases htext
    exact hn
  | error e =>
    apply h
    cases hc : convert text with
    | none => rfl
    | some n =>
      rw [Node.asNumber_eq_ok.mpr ⟨text,rfl,hc⟩] at hx
      cases hx

theorem throws_scalarThen {α : Type} {Q : α → Prop} {node : Node} {undefinedCode badCode : σ}
    {k : Except (Failure σ) α} (h : R → ∃ text, node = .scalar text)
    (hk : ∀ text, node = .scalar text → Meets k Q (Throws R)) :
    Meets (do
        require node.isDefined (.status undefinedCode)
        require node.isScalar (.status badCode)
        k) Q (Throws R) := by
  refine Meets.bind (throws_require ?_) (fun _ _ => Meets.bind (throws_require ?_)
    (fun _ hs => ?_))
  · intro hr
    obtain ⟨text,rfl⟩ := h hr
    rfl
  · exact fun hr => Node.isScalar_iff.mpr (h hr)
  · obtain ⟨text,ht⟩ := Node.isScalar_iff.mp hs
    exact hk text ht

theorem throws_requireScalar {node : Node} {undefinedText badText : String}
    (h : R → ∃ text, node = .scalar text) :
    Meets (requireScalar node undefinedText badText)
      (fun _ => ∃ text, node = .scalar text) (Throws R) := by
  have hpair : Meets (do
      require node.isDefined (.status undefinedText : Failure String)
      require node.isScalar (.status badText)
      pure ()) (fun _ => ∃ text, node = .scalar text) (Throws R) :=
    throws_scalarThen h (fun text ht => ⟨text,ht⟩)
  simpa [requireScalar] using hpair

end Checks

theorem convert_contra {α : Type} {convert : String → Option α} {node : Node} {a b : String}
    {n : α} (ha : node = .scalar a) (hb : node = .scalar b) (hn : convert a = none) :
    convert b ≠ some n := by
  rw [ha] at hb
  cases hb
  rw [hn]
  simp

def BadNumber (y : Conversions) (node : Node) (keyA keyB : String) : Prop :=
  ∃ ta tb, node.field keyA = .scalar ta ∧ node.field keyB = .scalar tb ∧
    (y.int ta = none ∨ y.int tb = none)

/-- The nodes under a keyword on which its reader throws. A null node passes for the
text of a scalar, so `nh` and `ht` reject it without throwing. -/
inductive KeywordRaises (y : Conversions) : String → Node → Prop where
  | nh {node : Node} : node.isSequence = true ∨ node.isMap = true → KeywordRaises y "nh" node
  | ht {node : Node} : node.isSequence = true ∨ node.isMap = true → KeywordRaises y "ht" node
  | mhl {node : Node} : node.isDefined = true →
      (∀ text n, node = .scalar text → y.int text ≠ some n) → KeywordRaises y "mhl" node
  | destinationArea {node : Node} : BadNumber y node "destination_a" "destination_b" →
      KeywordRaises y "destination_area" node
  | allowedSoRange {node : Node} {shape : String} : node.field "shape" = .scalar shape →
      lower shape = "circle" → BadNumber y node "distance_a" "distance_b" →
      KeywordRaises y "allowed_so_range" node

section Keywords
variable {y : Conversions} {node : Node}

theorem throws_asString {R : Prop} (hdef : node.isDefined = true)
    (hR : R ↔ node.isSequence = true ∨ node.isMap = true) :
    Meets (liftYaml node.asString : Except (Failure String) String) (fun _ => ¬ R) (Throws R) := by
  apply Meets.mapError
  cases node <;> simp_all [Node.asString,Meets,Throws,Node.isDefined,Node.isSequence,Node.isMap]

theorem keywordRaises_nh : KeywordRaises y "nh" node ↔
    node.isSequence = true ∨ node.isMap = true := by
  refine ⟨?_,.nh⟩
  generalize hk : "nh" = key
  intro h
  cases h with
  | nh hn => exact hn
  | _ => simp at hk

theorem keywordRaises_ht : KeywordRaises y "ht" node ↔
    node.isSequence = true ∨ node.isMap = true := by
  refine ⟨?_,.ht⟩
  generalize hk : "ht" = key
  intro h
  cases h with
  | ht hn => exact hn
  | _ => simp at hk

theorem keywordRaises_mhl : KeywordRaises y "mhl" node ↔ node.isDefined = true ∧
    ∀ text n, node = .scalar text → y.int text ≠ some n := by
  refine ⟨?_,fun h => .mhl h.1 h.2⟩
  generalize hk : "mhl" = key
  intro h
  cases h with
  | mhl hdef hn => exact ⟨hdef,hn⟩
  | _ => simp at hk

theorem keywordRaises_destinationArea : KeywordRaises y "destination_area" node ↔
    BadNumber y node "destination_a" "destination_b" := by
  refine ⟨?_,.destinationArea⟩
  generalize hk : "destination_area" = key
  intro h
  cases h with
  | destinationArea hn => exact hn
  | _ => simp at hk

theorem keywordRaises_allowedSoRange : KeywordRaises y "allowed_so_range" node ↔
    (∃ shape, node.field "shape" = .scalar shape ∧ lower shape = "circle") ∧
      BadNumber y node "distance_a" "distance_b" := by
  refine ⟨?_,fun ⟨⟨_,hs,hl⟩,hn⟩ => .allowedSoRange hs hl hn⟩
  generalize hk : "allowed_so_range" = key
  intro h
  cases h with
  | allowedSoRange hs hl hn => exact ⟨⟨_,hs,hl⟩,hn⟩
  | _ => simp at hk

theorem throws_twoNumbers {R : Prop} {ta tb : String} {f : Int → Int → PatternType}
    (hR : R ↔ y.int ta = none ∨ y.int tb = none) :
    Meets (do
        let a ← liftYaml ((Node.scalar ta).asNumber y.int)
        let b ← liftYaml ((Node.scalar tb).asNumber y.int)
        pure (f a b) : Except (Failure String) PatternType)
      (fun _ => ¬ R) (Throws R) := by
  refine Meets.bind (throws_asNumber (fun h => hR.mpr (.inl h))) (fun a ha => ?_)
  refine Meets.bind (throws_asNumber (fun h => hR.mpr (.inr h))) (fun b hb => ?_)
  show ¬ R
  rw [hR,ha,hb]
  simp

theorem badNumber_iff {keyA keyB ta tb : String} (ha : node.field keyA = .scalar ta)
    (hb : node.field keyB = .scalar tb) :
    BadNumber y node keyA keyB ↔ y.int ta = none ∨ y.int tb = none := by
  simp [BadNumber,ha,hb]

theorem throws_distances {R : Prop} {build : Int → Int → PatternType} (hs : node.isScalar = false)
    {fieldA fieldB undefinedA badA undefinedB badB : String}
    (hR : R ↔ BadNumber y node fieldA fieldB) :
    Meets (do
        let distanceANode ← liftYaml (node.subscript fieldA)
        requireScalar distanceANode undefinedA badA
        let distanceBNode ← liftYaml (node.subscript fieldB)
        requireScalar distanceBNode undefinedB badB
        let distanceA ← liftYaml (distanceANode.asNumber y.int)
        let distanceB ← liftYaml (distanceBNode.asNumber y.int)
        pure (build distanceA distanceB) : Except (Failure String) PatternType)
      (fun _ => ¬ R) (Throws R) := by
  have hfields : R → (∃ ta, node.field fieldA = .scalar ta) ∧ ∃ tb, node.field fieldB = .scalar tb := by
    intro hr
    obtain ⟨ta,tb,ha,hb,_⟩ := hR.mp hr
    exact ⟨⟨ta,ha⟩,⟨tb,hb⟩⟩
  refine Meets.bind (throws_subscript hs) (fun a ha => ?_)
  subst ha
  refine Meets.bind (throws_requireScalar (fun hr => (hfields hr).1)) (fun _ ha => ?_)
  refine Meets.bind (throws_subscript hs) (fun b hb => ?_)
  subst hb
  refine Meets.bind (throws_requireScalar (fun hr => (hfields hr).2)) (fun _ hb => ?_)
  obtain ⟨ta,ha⟩ := ha
  obtain ⟨tb,hb⟩ := hb
  rw [ha,hb]
  exact throws_twoNumbers (hR.trans (badNumber_iff ha hb))

theorem throws_checkedText {R : Prop} (hdef : node.isDefined = true)
    (hR : R ↔ node.isSequence = true ∨ node.isMap = true) (check : String → Bool)
    (message : String) :
    Meets (do
        let text ← liftYaml node.asString
        require (check text) (.status message)
        pure (.string text) : Except (Failure String) PatternType)
      (fun _ => ¬ R) (Throws R) := by
  refine Meets.bind (throws_asString hdef hR) (fun text hn => ?_)
  exact Meets.bind (Meets.require (fun _ => hn)) (fun _ _ => hn)

theorem readMhl_throws (hdef : node.isDefined = true) :
    Meets (readMhl y node) (fun _ => ¬ KeywordRaises y "mhl" node)
      (Throws (KeywordRaises y "mhl" node)) := by
  rw [keywordRaises_mhl]
  cases hx : node.asNumber y.int with
  | ok n =>
    obtain ⟨text,rfl,hn⟩ := Node.asNumber_eq_ok.mp hx
    rw [readMhl,hx]
    exact fun h => h.2 text n rfl hn
  | error e =>
    rw [readMhl,hx]
    refine ⟨hdef,?_⟩
    intro text n hnode hn
    rw [Node.asNumber_eq_ok.mpr ⟨text,hnode,hn⟩] at hx
    cases hx

theorem readDestinationArea_throws :
    Meets (readDestinationArea y node) (fun _ => ¬ KeywordRaises y "destination_area" node)
      (Throws (KeywordRaises y "destination_area" node)) := by
  rw [keywordRaises_destinationArea]
  refine Meets.bind (throws_require ?_) (fun _ hm => ?_)
  · intro ⟨ta,tb,ha,_,_⟩
    exact Node.isMap_of_field_scalar ha
  have hs := Node.isScalar_false_of_isMap hm
  exact throws_distances hs Iff.rfl

theorem readAllowedSoRange_throws :
    Meets (readAllowedSoRange y node) (fun _ => ¬ KeywordRaises y "allowed_so_range" node)
      (Throws (KeywordRaises y "allowed_so_range" node)) := by
  rw [keywordRaises_allowedSoRange]
  refine Meets.bind (throws_require ?_) (fun _ hm => ?_)
  · intro ⟨⟨shape,hs,_⟩,_⟩
    exact Node.isMap_of_field_scalar hs
  have hs := Node.isScalar_false_of_isMap hm
  refine Meets.bind (throws_subscript hs) (fun s hshape => ?_)
  subst hshape
  refine Meets.bind (throws_requireScalar (fun ⟨⟨shape,hs,_⟩,_⟩ => ⟨shape,hs⟩)) (fun _ hsc => ?_)
  obtain ⟨shape,hshape⟩ := hsc
  rw [hshape]
  refine Meets.bind (P := fun text => text = shape) rfl (fun text htext => ?_)
  subst htext
  refine Meets.bind (throws_require ?_) (fun _ hl => ?_)
  · intro ⟨⟨shape',hs',hl⟩,_⟩
    cases hs'
    simpa using hl
  have hcircle : ∃ shape, Node.scalar text = .scalar shape ∧ lower shape = "circle" :=
    ⟨text,rfl,by simpa using hl⟩
  exact throws_distances hs (and_iff_right hcircle)

theorem readGeonetKeyword_throws {key : String} (hkey : key ∈ conditionKeywords)
    (hdef : node.isDefined = true) :
    Meets (readGeonetKeyword y key node) (fun _ => ¬ KeywordRaises y key node)
      (Throws (KeywordRaises y key node)) := by
  simp only [conditionKeywords,List.mem_cons,List.not_mem_nil,or_false] at hkey
  rcases hkey with rfl | rfl | rfl | rfl | rfl
  · exact Meets.map (throws_checkedText hdef keywordRaises_nh _ _)
  · exact Meets.map (throws_checkedText hdef keywordRaises_ht _ _)
  · exact Meets.map (readMhl_throws hdef)
  · exact Meets.map readDestinationArea_throws
  · exact Meets.map readAllowedSoRange_throws

end Keywords

def KeysRaise (y : Conversions) (rule : Node) (keys : List String) : Prop :=
  ∃ before key after, keys = before ++ key :: after ∧
    (∀ k ∈ before, (rule.field k).isDefined = true → ∃ p, Spells y k (rule.field k) p) ∧
    KeywordRaises y key (rule.field key)

theorem keysRaise_cons {y : Conversions} {rule : Node} {key : String} {keys : List String} :
    KeysRaise y rule (key :: keys) ↔ KeywordRaises y key (rule.field key) ∨
      (((rule.field key).isDefined = true → ∃ p, Spells y key (rule.field key) p) ∧
        KeysRaise y rule keys) := by
  constructor
  · intro ⟨before,k,after,heq,hread,hraise⟩
    cases before with
    | nil =>
      cases heq
      exact .inl hraise
    | cons k' before =>
      cases heq
      exact .inr ⟨hread key (by simp),before,k,after,rfl,fun j hj => hread j (by simp [hj]),hraise⟩
  · intro h
    rcases h with hraise | ⟨hread,before,k,after,rfl,hbefore,hraise⟩
    · exact ⟨[],key,keys,rfl,by simp,hraise⟩
    · refine ⟨key :: before,k,after,rfl,?_,hraise⟩
      intro j hj
      rcases List.mem_cons.mp hj with rfl | hj
      · exact hread
      · exact hbefore j hj

theorem KeywordRaises.isDefined {y : Conversions} {key : String} {node : Node}
    (h : KeywordRaises y key node) : node.isDefined = true := by
  have hfield : ∀ {k text : String}, node.field k = .scalar text → node.isDefined = true := by
    intro k text hk
    cases node <;> simp_all [Node.field,Node.isDefined]
  cases h with
  | nh h => cases node <;> simp_all [Node.isSequence,Node.isMap,Node.isDefined]
  | ht h => cases node <;> simp_all [Node.isSequence,Node.isMap,Node.isDefined]
  | mhl hdef _ => exact hdef
  | destinationArea h =>
    obtain ⟨ta,tb,ha,_⟩ := h
    exact hfield ha
  | allowedSoRange hs _ _ => exact hfield hs

theorem readKeywords_throws {y : Conversions} {rule : Node} (hs : rule.isScalar = false)
    (keys : List String) (hkeys : ∀ key ∈ keys, key ∈ conditionKeywords) (acc : PatternRead) :
    Meets (readKeywords (readGeonetKeyword y) rule keys acc) (fun _ => ¬ KeysRaise y rule keys)
      (Throws (KeysRaise y rule keys)) := by
  induction keys generalizing acc with
  | nil =>
    intro ⟨before,key,after,heq,_⟩
    cases before <;> cases heq
  | cons key keys ih =>
    have hkey := hkeys key (by simp)
    have hrest : ∀ k ∈ keys, k ∈ conditionKeywords := fun k hk => hkeys k (by simp [hk])
    refine Meets.bind (throws_subscript hs) (fun node hnode => ?_)
    subst hnode
    by_cases hdef : (rule.field key).isDefined = true
    · have hthrows := readGeonetKeyword_throws (y := y) hkey hdef
      have hmeets := readGeonetKeyword_meets y (G := KeywordGrammar key (rule.field key)) hkey
        (fun g => g)
      simp only [hdef,if_true]
      cases hx : readGeonetKeyword y key (rule.field key) with
      | ok r =>
        have hn := hthrows.of_ok hx
        obtain ⟨p,_,hp⟩ := hmeets.of_ok hx
        have hiff : KeysRaise y rule (key :: keys) ↔ KeysRaise y rule keys := by
          rw [keysRaise_cons]
          simp [hn,hdef,show ∃ p, Spells y key (rule.field key) p from ⟨p,hp⟩]
        rw [hiff]
        exact ih hrest (acc.store key r)
      | error e =>
        have hn := hthrows.of_error hx
        cases e with
        | status text =>
          have hg := hmeets.of_error hx
          show ¬ KeysRaise y rule (key :: keys)
          rw [keysRaise_cons]
          intro hcase
          rcases hcase with hraise | ⟨hread,_⟩
          · exact hn hraise
          · obtain ⟨p,hp⟩ := hread hdef
            exact hg hp.keywordGrammar
        | exception e => exact keysRaise_cons.mpr (.inl hn)
    · simp only [hdef]
      have hiff : KeysRaise y rule (key :: keys) ↔ KeysRaise y rule keys := by
        rw [keysRaise_cons]
        constructor
        · intro hcase
          rcases hcase with hraise | ⟨_,h⟩
          · exact absurd hraise.isDefined hdef
          · exact h
        · exact fun h => .inr ⟨fun hd => absurd hd hdef,h⟩
      rw [hiff]
      exact ih hrest acc

structure MetaRaises (y : Conversions) (node : Node) : Prop where
  msg : ScalarField node "msg"
  number : ∃ sid, node.field "sid" = .scalar sid ∧ (y.uint32 sid = none ∨
    ((y.uint32 sid).isSome = true ∧ ∃ rev, node.field "rev" = .scalar rev ∧ y.uint16 rev = none))

theorem readMetadata_throws {y : Conversions} {node : Node} (hm : node.isMap = true) :
    Meets (readMetadata y node) (fun _ => ¬ MetaRaises y node) (Throws (MetaRaises y node)) := by
  have hs := Node.isScalar_false_of_isMap hm
  refine Meets.bind (throws_subscript hs) (fun msgNode hmsg => ?_)
  subst hmsg
  refine throws_scalarThen (fun h => h.msg) (fun msg hmsg => ?_)
  rw [hmsg]
  refine Meets.bind (P := fun _ => True) trivial (fun _ _ => ?_)
  refine Meets.bind (throws_subscript hs) (fun sidNode hsid => ?_)
  subst hsid
  refine throws_scalarThen ?_ (fun sid hsid => ?_)
  · intro h
    obtain ⟨sid,hsid,_⟩ := h.number
    exact ⟨sid,hsid⟩
  rw [hsid]
  refine Meets.bind (throws_asNumber (fun hn => ⟨⟨msg,hmsg⟩,sid,hsid,.inl hn⟩)) (fun n hn => ?_)
  refine Meets.bind (throws_subscript hs) (fun revNode hrev => ?_)
  subst hrev
  -- past a good sid only rev can raise
  have hrevOf : MetaRaises y node → ∃ rev, node.field "rev" = .scalar rev ∧
      y.uint16 rev = none := by
    intro h
    obtain ⟨sid',hsid',hbad⟩ := h.number
    rcases hbad with hbad | ⟨_,hrev⟩
    · exact absurd hn (convert_contra hsid' hsid hbad)
    · exact hrev
  refine throws_scalarThen ?_ (fun rev hrev => ?_)
  · intro h
    obtain ⟨rev,hrev,_⟩ := hrevOf h
    exact ⟨rev,hrev⟩
  rw [hrev]
  refine Meets.bind (throws_asNumber (fun hr =>
    ⟨⟨msg,hmsg⟩,sid,hsid,.inr ⟨by simp [hn],rev,hrev,hr⟩⟩)) (fun r hr => ?_)
  intro h
  obtain ⟨rev',hrev',hbad⟩ := hrevOf h
  exact convert_contra hrev' hrev hbad hr

structure Headed (rule : Node) : Prop where
  action : ∃ a, ruleAction rule = some a
  protocol : ∃ p, ruleProtocol rule = some p
  metaData : (rule.field "meta").isDefined = true

/-- The head of the rule throws: a scalar has no fields, or the metadata raise. -/
def HeadRaises (y : Conversions) (rule : Node) : Prop :=
  rule.isScalar = true ∨ (Headed rule ∧ MetaRaises y (rule.field "meta"))

/-- How reading the head of a rule may fail. -/
def HeadEnds (y : Conversions) (rule : Node) : Failure RuleReaderStatusCode → Prop
  | .status code => ¬ HeadRaises y rule ∧ code ≠ .badPattern ∧ (Headed rule → code = .badMetaData)
  | .exception _ => HeadRaises y rule

theorem headEnds_require {y : Conversions} {rule : Node} {c : Bool} {code : RuleReaderStatusCode}
    (hs : rule.isScalar = false) (h : Headed rule → c = true) (hcode : code ≠ .badPattern) :
    Meets (require c (.status code : Failure RuleReaderStatusCode)) (fun _ => c = true)
      (HeadEnds y rule) := by
  apply Meets.require
  intro hc
  have hn : ¬ Headed rule := by
    intro hd
    rw [h hd] at hc
    cases hc
  refine ⟨?_,hcode,fun hd => absurd hd hn⟩
  intro hr
  rcases hr with hr | hr
  · rw [hs] at hr
    cases hr
  · exact hn hr.1

theorem actionNames_named {node : Node} {text : String} (h : node = .scalar text) {a : Action}
    (hn : node.named actionNames = some a) : actionOfText (lower text) ≠ .notSupportedAction := by
  subst h
  intro hnot
  simp [Node.named,actionNames_lookup,hnot] at hn

theorem protocolAliases_named {node : Node} {text : String} (h : node = .scalar text)
    {p : Protocol} (hn : node.named protocolAliases = some p) :
    protocolOfText (lower text) ≠ .notSupportedProtocol := by
  subst h
  intro hnot
  simp [Node.named,protocolAliases_lookup,hnot] at hn

theorem readHead_ends (y : Conversions) (rule : Node) :
    Meets (readHead y rule) (fun _ => True) (HeadEnds y rule) := by
  by_cases hs : rule.isScalar = true
  · have hsub : rule.subscript "action" = .error .badSubscript :=
      Node.subscript_eq_error.mpr ⟨hs,rfl⟩
    rw [readHead,hsub]
    exact .inl hs
  have hs : rule.isScalar = false := by simpa using hs
  have hsub : ∀ key, Meets (liftYaml (rule.subscript key) : Except (Failure _) Node)
      (fun value => value = rule.field key) (HeadEnds y rule) := by
    intro key
    rw [Node.subscript_eq_ok.mpr ⟨hs,rfl⟩]
    rfl
  refine Meets.bind (hsub "action") (fun actionNode ha => ?_)
  subst ha
  refine Meets.bind (headEnds_require hs (fun h => h.action.elim fun _ => named_isDefined)
    (by simp)) (fun _ _ => ?_)
  refine Meets.bind (headEnds_require hs (fun h => h.action.elim fun _ => named_isScalar)
    (by simp)) (fun _ hsa => ?_)
  obtain ⟨ta,hta⟩ := Node.isScalar_iff.mp hsa
  rw [hta]
  refine Meets.bind (P := fun a => a = actionOfText (lower ta)) rfl (fun action haction => ?_)
  subst haction
  refine Meets.bind (headEnds_require hs ?_ (by simp)) (fun _ hna => ?_)
  · intro h
    obtain ⟨a,ha⟩ := h.action
    simpa using actionNames_named hta ha
  refine Meets.bind (hsub "protocol") (fun protocolNode hp => ?_)
  subst hp
  refine Meets.bind (headEnds_require hs (fun h => h.protocol.elim fun _ => named_isDefined)
    (by simp)) (fun _ _ => ?_)
  refine Meets.bind (headEnds_require hs (fun h => h.protocol.elim fun _ => named_isScalar)
    (by simp)) (fun _ hsp => ?_)
  obtain ⟨tp,htp⟩ := Node.isScalar_iff.mp hsp
  rw [htp]
  refine Meets.bind (P := fun p => p = protocolOfText (lower tp)) rfl
    (fun protocol hprotocol => ?_)
  subst hprotocol
  refine Meets.bind (headEnds_require hs ?_ (by simp)) (fun _ hnp => ?_)
  · intro h
    obtain ⟨p,hp⟩ := h.protocol
    simpa using protocolAliases_named htp hp
  refine Meets.bind (hsub "meta") (fun metaNode hm => ?_)
  subst hm
  refine Meets.bind (headEnds_require hs (fun h => h.metaData) (by simp)) (fun _ hdef => ?_)
  have hheaded : Headed rule := by
    refine ⟨⟨actionOfText (lower ta),?_⟩,⟨protocolOfText (lower tp),?_⟩,hdef⟩
    · simpa [ruleAction,hta,Node.named,actionNames_lookup] using hna
    · simpa [ruleProtocol,htp,Node.named,protocolAliases_lookup] using hnp
  have hraises : HeadRaises y rule ↔ MetaRaises y (rule.field "meta") := by
    simp [HeadRaises,hs,hheaded]
  refine Meets.bind (Meets.require ?_) (fun _ hmap => ?_)
  · intro hmap
    refine ⟨?_,by simp,fun _ => rfl⟩
    rw [hraises]
    intro h
    obtain ⟨text,ht⟩ := h.msg
    rw [Node.isMap_of_field_scalar ht] at hmap
    cases hmap
  refine Meets.bind (P := fun _ => True) ?_ (fun _ _ => trivial)
  apply Meets.mapError
  refine (readMetadata_throws hmap).mono (fun _ _ => trivial) ?_
  intro e he
  cases e with
  | status code => exact ⟨by rw [hraises]; exact he,by simp,fun _ => rfl⟩
  | exception e => exact hraises.mpr he

theorem HeadDenotes.headGrammar {y : Conversions} {rule : Node} {sig : Signature}
    (h : HeadDenotes y rule sig) : HeadGrammar rule := by
  obtain ⟨ts,hsid,_⟩ := h.sid
  obtain ⟨tr,hrev,_⟩ := h.rev
  exact ⟨⟨_,h.action⟩,⟨_,h.protocol⟩,Node.isMap_of_field_scalar h.msg,⟨_,h.msg⟩,⟨ts,hsid⟩,⟨tr,hrev⟩⟩

theorem HeadDenotes.headed {y : Conversions} {rule : Node} {sig : Signature}
    (h : HeadDenotes y rule sig) : Headed rule where
  action := ⟨_,h.action⟩
  protocol := ⟨_,h.protocol⟩
  metaData := by
    have hm := Node.isMap_of_field_scalar h.msg
    cases hn : rule.field "meta" <;> simp_all [Node.isMap,Node.isDefined]

theorem HeadDenotes.not_headRaises {y : Conversions} {rule : Node} {sig : Signature}
    (h : HeadDenotes y rule sig) : ¬ HeadRaises y rule := by
  intro hr
  rcases hr with hs | ⟨_,hm⟩
  · rw [isScalar_false_of_ruleAction h.action] at hs
    cases hs
  · obtain ⟨ts,hsid,hts⟩ := h.sid
    obtain ⟨tr,hrev,htr⟩ := h.rev
    obtain ⟨sid,hsid',hbad⟩ := hm.number
    rcases hbad with hbad | ⟨_,rev,hrev',hbad⟩
    · exact convert_contra hsid' hsid hbad hts
    · exact convert_contra hrev' hrev hbad htr

def RuleRaises (y : Conversions) (rule : Node) : Prop :=
  HeadRaises y rule ∨ ∃ sig, HeadDenotes y rule sig ∧ sig.protocol = .geoNetworking ∧
    KeysRaise y rule conditionKeywords

theorem readPatterns_throws {y : Conversions} {rule : Node} {sig : Signature}
    (h : HeadDenotes y rule sig) :
    Meets (readPatterns y rule sig) (fun _ => ¬ RuleRaises y rule)
      (Throws (RuleRaises y rule)) := by
  have hs := isScalar_false_of_ruleAction h.action
  have hraises : RuleRaises y rule ↔
      sig.protocol = .geoNetworking ∧ KeysRaise y rule conditionKeywords := by
    constructor
    · intro hr
      rcases hr with hr | ⟨sig',h',hp,hk⟩
      · exact absurd hr h.not_headRaises
      · have hsame := h.protocol.symm.trans h'.protocol
        exact ⟨(Option.some.inj hsame).trans hp,hk⟩
    · exact fun hk => .inr ⟨sig,h,hk⟩
  rw [hraises]
  unfold readPatterns
  cases hp : sig.protocol with
  | geoNetworking =>
    have hloop := readKeywords_throws (y := y) hs conditionKeywords (fun _ hk => hk) ⟨sig,[]⟩
    apply Meets.map
    apply Meets.mapError
    rw [readGeonetPattern,geonetKeywords_eq]
    refine hloop.mono (fun _ hn hr => hn hr.2) ?_
    intro e he
    cases e with
    | status text => exact fun hr => he hr.2
    | exception e => exact ⟨rfl,he⟩
  | facility =>
    obtain ⟨r,hr,_⟩ := readFacilityPattern_ok y hs sig
    rw [hr]
    exact fun hr => by cases hr.1
  | _ => exact fun hr => by cases hr.1

theorem readRule_throws (y : Conversions) (rule : Node) :
    Meets (readRule y rule) (fun _ => ¬ RuleRaises y rule) (Throws (RuleRaises y rule)) := by
  rw [readRule]
  have hends := readHead_ends y rule
  cases hx : readHead y rule with
  | ok sig => exact readPatterns_throws ((readHead_meets y rule).of_ok hx)
  | error e =>
    have he := hends.of_error hx
    cases e with
    | status code =>
      have hg : ¬ HeadGrammar rule := (readHead_meets y rule).of_error hx
      show ¬ RuleRaises y rule
      intro hr
      rcases hr with hr | ⟨sig,hsig,_⟩
      · exact he.1 hr
      · exact hg hsig.headGrammar
    | exception e => exact .inl he

theorem readRule_status {y : Conversions} {rule : Node} {code : RuleReaderStatusCode}
    (h : readRule y rule = .error (.status code)) (hd : Headed rule) :
    code = .badMetaData ∨ code = .badPattern := by
  rw [readRule,bind_eq_error] at h
  rcases h with h | ⟨sig,_,h⟩
  · exact .inl (((readHead_ends y rule).of_error h).2.2 hd)
  · right
    have hcollapse : ∀ {x : Except (Failure String) PatternRead},
        PatternRead.sig <$> collapse .badPattern x =
          (.error (.status code) : Except (Failure RuleReaderStatusCode) Signature) →
        code = .badPattern := by
      intro x hx
      cases x with
      | ok r => cases hx
      | error e =>
        cases e <;> cases hx
        rfl
    unfold readPatterns at h
    cases hp : sig.protocol with
    | geoNetworking =>
      rw [hp] at h
      exact hcollapse h
    | facility =>
      rw [hp] at h
      exact hcollapse h
    | _ =>
      rw [hp] at h
      cases h

theorem Denotes.headDenotes {y : Conversions} {rule : Node} {sig : Signature}
    (h : Denotes y rule sig) : HeadDenotes y rule { sig with patterns := ∅ } :=
  ⟨h.action,h.protocol,h.msg,h.sid,h.rev,rfl⟩

theorem Spells.not_raises {y : Conversions} {key : String} {node : Node} {p : PatternType}
    (h : Spells y key node p) : ¬ KeywordRaises y key node := by
  cases h with
  | nh _ => simp [keywordRaises_nh,Node.isSequence,Node.isMap]
  | ht _ => simp [keywordRaises_ht,Node.isSequence,Node.isMap]
  | mhl hn => simp [keywordRaises_mhl,hn]
  | destinationArea ha hb ha' hb' =>
    simp [keywordRaises_destinationArea,badNumber_iff ha hb,ha',hb']
  | allowedSoRange _ _ ha hb ha' hb' =>
    simp [keywordRaises_allowedSoRange,badNumber_iff ha hb,ha',hb']

theorem Denotes.not_raises {y : Conversions} {rule : Node} {sig : Signature}
    (h : Denotes y rule sig) : ¬ RuleRaises y rule := by
  intro hr
  rcases hr with hr | ⟨sig',hsig',hp,before,key,after,hkeys,_,hraise⟩
  · exact h.headDenotes.not_headRaises hr
  · have hproto : ruleProtocol rule = some .geoNetworking := by rw [hsig'.protocol,hp]
    obtain ⟨p,hspells⟩ := h.spells hproto (by rw [hkeys]; simp) hraise.isDefined
    exact hspells.not_raises hraise

/-- The accepted rules are those that denote a signature. -/
theorem readRule_ok_iff {y : Conversions} {rule : Node} :
    (∃ sig, readRule y rule = .ok sig) ↔ ∃ sig, Denotes y rule sig := by
  constructor
  · intro ⟨sig,h⟩
    exact ⟨sig,(readRule_meets y rule).of_ok h⟩
  · intro ⟨sig,hd⟩
    cases hx : readRule y rule with
    | ok sig' => exact ⟨sig',rfl⟩
    | error e =>
      cases e with
      | status code => exact absurd hd.ruleGrammar ((readRule_meets y rule).of_error hx)
      | exception e => exact absurd ((readRule_throws y rule).of_error hx) hd.not_raises

theorem readRules_append {y : Conversions} {pre : List Node}
    (h : ∀ rule ∈ pre, ∃ sig, Denotes y rule sig) (rest : List Node) (m : SignaturesType) :
    ∃ m', readRules y (pre ++ rest) m = readRules y rest m' := by
  induction pre generalizing m with
  | nil => exact ⟨m,rfl⟩
  | cons rule pre ih =>
    obtain ⟨sig,hsig⟩ := readRule_ok_iff.mpr (h rule (by simp))
    obtain ⟨m',hm'⟩ := ih (fun r hr => h r (by simp [hr])) (storeSignature m sig)
    refine ⟨m',?_⟩
    rw [List.cons_append,readRules,hsig]
    exact hm'

theorem readRules_stops {y : Conversions} {rules : List Node} {m : SignaturesType}
    (h : ∀ m', readRules y rules m ≠ .ok (.success,m')) :
    ∃ pre bad post m', rules = pre ++ bad :: post ∧ (∀ r ∈ pre, ∃ sig, Denotes y r sig) ∧
      ExtendedBy y pre m m' ∧ readRules y rules m = readRules y [bad] m' ∧
      ∀ sig, readRule y bad ≠ .ok sig := by
  induction rules generalizing m with
  | nil => exact absurd rfl (h m)
  | cons rule rules ih =>
    cases hx : readRule y rule with
    | ok sig =>
      have hnext : readRules y (rule :: rules) m = readRules y rules (storeSignature m sig) := by
        rw [readRules,hx]
      rw [hnext] at h
      obtain ⟨pre,bad,post,m',rfl,hpre,hext,hend,hbad⟩ := ih h
      have hd := (readRule_meets y rule).of_ok hx
      refine ⟨rule :: pre,bad,post,m',rfl,?_,hext.cons hd,hnext.trans hend,hbad⟩
      intro r hr
      rcases List.mem_cons.mp hr with rfl | hr
      · exact ⟨sig,hd⟩
      · exact hpre r hr
    | error e =>
      refine ⟨[],rule,rules,m,rfl,by simp,ExtendedBy.refl y m,?_,by simp [hx]⟩
      cases e <;> simp only [readRules,hx]

theorem readRules_exception {y : Conversions} {rules : List Node} {m : SignaturesType}
    {e : YamlException} (h : readRules y rules m = .error e) :
    ∃ pre rule post, rules = pre ++ rule :: post ∧ (∀ r ∈ pre, ∃ sig, Denotes y r sig) ∧
      readRule y rule = .error (.exception e) := by
  have hne : ∀ m', readRules y rules m ≠ .ok (.success,m') := by simp [h]
  obtain ⟨pre,bad,post,m',hrules,hpre,_,hend,hbad⟩ := readRules_stops hne
  refine ⟨pre,bad,post,hrules,hpre,?_⟩
  rw [h,readRules] at hend
  cases hx : readRule y bad with
  | ok sig => exact absurd hx (hbad sig)
  | error e' =>
    rw [hx] at hend
    cases e' with
    | status code => cases hend
    | exception e' => cases hend; rfl

/-- The reader looks at `rule` after it has accepted the rules of `pre`. -/
def ReachedAfter (y : Conversions) (ruleset : Node) (pre : List Node) (rule : Node) : Prop :=
  (∃ post, ruleset.ruleSequence = some (pre ++ rule :: post)) ∧
    ∀ r ∈ pre, ∃ sig, Denotes y r sig

def Reached (y : Conversions) (ruleset rule : Node) : Prop :=
  ∃ pre, ReachedAfter y ruleset pre rule

theorem ReachedAfter.read_eq_readRules {y : Conversions} {ruleset : Node} {pre : List Node}
    {rule : Node} (h : ReachedAfter y ruleset pre rule) (m : SignaturesType) :
    ∃ m' post, read y ruleset m = readRules y (rule :: post) m' := by
  obtain ⟨⟨post,hseq⟩,hpre⟩ := h
  obtain ⟨m',hm'⟩ := readRules_append hpre (rule :: post) m
  exact ⟨m',post,by rw [read_eq,hseq]; exact hm'⟩

def SpellsId (y : Conversions) (item : Node) (id : UInt32) : Prop :=
  ∃ text, item = .scalar text ∧ y.uint32 text = some id

def distanceFields : List (String × String) :=
  [("destination_area","destination_a"),("destination_area","destination_b"),
   ("allowed_so_range","distance_a"),("allowed_so_range","distance_b")]

/-- A value of the wrong type under a keyword of a GeoNetworking rule. -/
inductive IllTyped (y : Conversions) : String → Node → Prop where
  | kind {key : String} {node : Node} : key ∈ ["nh","ht","mhl"] → node.isDefined = true →
      node.isScalar = false → IllTyped y key node
  | mhl {text : String} : y.int text = none → IllTyped y "mhl" (.scalar text)
  | distance {key sub text : String} {node : Node} : (key,sub) ∈ distanceFields →
      node.field sub = .scalar text → y.int text = none → IllTyped y key node

/-- A rule that is not a map, or has a value of the wrong type. -/
inductive BadlyTyped (y : Conversions) (rule : Node) : Prop where
  | notMap : rule.isMap = false → BadlyTyped y rule
  | sid {text : String} : Headed rule → (rule.field "meta").field "sid" = .scalar text →
      y.uint32 text = none → BadlyTyped y rule
  | rev {text : String} : Headed rule → (rule.field "meta").field "rev" = .scalar text →
      y.uint16 text = none → BadlyTyped y rule
  | keyword {key : String} : Headed rule → ruleProtocol rule = some .geoNetworking →
      IllTyped y key (rule.field key) → BadlyTyped y rule
  | id {items : List Node} {item : Node} : Headed rule → ruleProtocol rule = some .facility →
      rule.field "allowed_ids" = .sequence items → item ∈ items → (∀ n, ¬ SpellsId y item n) →
      BadlyTyped y rule

/-- The badly typed rules that do not get one of the three statuses: the reader throws,
asks a rule that is not a map for its action, or never looks at the ids. -/
inductive Unreported (y : Conversions) (rule : Node) : Prop where
  | notMap : rule.isMap = false → Unreported y rule
  | metaData : Headed rule → MetaRaises y (rule.field "meta") → Unreported y rule
  | keyword {sig : Signature} : HeadDenotes y rule sig → sig.protocol = .geoNetworking →
      KeysRaise y rule conditionKeywords → Unreported y rule
  | id {sig : Signature} {items : List Node} {item : Node} : HeadDenotes y rule sig →
      sig.protocol = .facility → rule.field "allowed_ids" = .sequence items → item ∈ items →
      (∀ n, ¬ SpellsId y item n) → Unreported y rule

/-- The load ends with a status, and a badly typed rule that is reached is rejected with
one of the three statuses for it. -/
def BadTypesReported (y : Conversions) (ruleset : Node) (m : SignaturesType) : Prop :=
  ∃ code m', read y ruleset m = .ok (code,m') ∧
    ∀ rule, Reached y ruleset rule → BadlyTyped y rule →
      readRule y rule = .error (.status code) ∧
      code ∈ [RuleReaderStatusCode.brokenRuleStructure,.badMetaData,.badPattern]

theorem RuleRaises.unreported {y : Conversions} {rule : Node} (h : RuleRaises y rule) :
    Unreported y rule := by
  rcases h with (hs | ⟨hd,hm⟩) | ⟨sig,hsig,hp,hk⟩
  · exact .notMap (by cases rule <;> simp_all [Node.isScalar,Node.isMap])
  · exact .metaData hd hm
  · exact .keyword hsig hp hk

theorem IllTyped.not_spells {y : Conversions} {key : String} {node : Node} {p : PatternType}
    (h : IllTyped y key node) : ¬ Spells y key node p := by
  intro hs
  cases h with
  | kind hkey _ hns =>
    cases hs with
    | nh _ => simp [Node.isScalar] at hns
    | ht _ => simp [Node.isScalar] at hns
    | mhl _ => simp [Node.isScalar] at hns
    | destinationArea _ _ _ _ => simp at hkey
    | allowedSoRange _ _ _ _ _ _ => simp at hkey
  | mhl hn =>
    generalize hk : "mhl" = k at hs
    cases hs with
    | mhl hn' => rw [hn] at hn'; cases hn'
    | _ => simp at hk
  | @distance _ sub text _ hsub hfield hn =>
    cases hs with
    | destinationArea ha hb ha' hb' =>
      simp only [distanceFields,List.mem_cons,Prod.mk.injEq,String.reduceEq,true_and,false_and,
        List.not_mem_nil,or_false] at hsub
      rcases hsub with rfl | rfl
      · exact convert_contra hfield ha hn ha'
      · exact convert_contra hfield hb hn hb'
    | allowedSoRange _ _ ha hb ha' hb' =>
      simp only [distanceFields,List.mem_cons,Prod.mk.injEq,String.reduceEq,true_and,false_and,
        List.not_mem_nil,or_false,false_or] at hsub
      rcases hsub with rfl | rfl
      · exact convert_contra hfield ha hn ha'
      · exact convert_contra hfield hb hn hb'
    | _ => simp [distanceFields] at hsub

theorem IllTyped.known {y : Conversions} {key : String} {node : Node} (h : IllTyped y key node) :
    key ∈ conditionKeywords ∧ node.isDefined = true := by
  cases h with
  | kind hkey hdef _ =>
    refine ⟨?_,hdef⟩
    simp only [List.mem_cons,List.not_mem_nil,or_false] at hkey
    rcases hkey with rfl | rfl | rfl <;> decide
  | mhl _ => exact ⟨by decide,rfl⟩
  | @distance _ sub _ _ hsub hfield _ =>
    refine ⟨?_,by cases node <;> simp_all [Node.field,Node.isDefined]⟩
    simp only [distanceFields,List.mem_cons,Prod.mk.injEq,List.not_mem_nil,or_false] at hsub
    rcases hsub with ⟨rfl,_⟩ | ⟨rfl,_⟩ | ⟨rfl,_⟩ | ⟨rfl,_⟩ <;> decide

/-- A badly typed rule that is accepted is one whose ids were not looked at. -/
theorem BadlyTyped.unreported_of_denotes {y : Conversions} {rule : Node} {sig : Signature}
    (h : BadlyTyped y rule) (hd : Denotes y rule sig) : Unreported y rule := by
  cases h with
  | notMap hm => exact .notMap hm
  | sid _ hsid hn =>
    obtain ⟨text,htext,hconv⟩ := hd.sid
    exact absurd hconv (convert_contra hsid htext hn)
  | rev _ hrev hn =>
    obtain ⟨text,htext,hconv⟩ := hd.rev
    exact absurd hconv (convert_contra hrev htext hn)
  | keyword _ hp hill =>
    obtain ⟨p,hspells⟩ := hd.spells hp hill.known.1 hill.known.2
    exact absurd hspells hill.not_spells
  | id _ hp hids hitem hn =>
    exact .id hd.headDenotes (Option.some.inj (hd.protocol.symm.trans hp)) hids hitem hn

theorem BadlyTyped.headed {y : Conversions} {rule : Node} (h : BadlyTyped y rule)
    (hm : rule.isMap = true) : Headed rule := by
  cases h with
  | notMap hn => rw [hm] at hn; cases hn
  | sid hd _ _ => exact hd
  | rev hd _ _ => exact hd
  | keyword hd _ _ => exact hd
  | id hd _ _ _ _ => exact hd

theorem readRule_notMap {y : Conversions} {rule : Node} (h : rule.isMap = false) :
    readRule y rule = .error (.exception .badSubscript) ∨
      readRule y rule = .error (.status .undefinedAction) := by
  cases rule with
  | scalar text => exact .inl rfl
  | map entries => cases h
  | _ => exact .inr rfl

theorem HeadDenotes.readHead_ok {y : Conversions} {rule : Node} {sig : Signature}
    (h : HeadDenotes y rule sig) : ∃ sig', readHead y rule = .ok sig' ∧
      HeadDenotes y rule sig' := by
  cases hx : readHead y rule with
  | ok sig' => exact ⟨sig',rfl,(readHead_meets y rule).of_ok hx⟩
  | error e =>
    cases e with
    | status code => exact absurd h.headGrammar ((readHead_meets y rule).of_error hx)
    | exception e => exact absurd ((readHead_ends y rule).of_error hx) h.not_headRaises

theorem readRule_facility {y : Conversions} {rule : Node} {sig : Signature}
    (h : HeadDenotes y rule sig) (hp : sig.protocol = .facility) :
    ∃ sig', readRule y rule = .ok sig' ∧ sig'.patterns = ∅ := by
  obtain ⟨sig',hhead,hsig'⟩ := h.readHead_ok
  have hp' : sig'.protocol = .facility :=
    (Option.some.inj (hsig'.protocol.symm.trans h.protocol)).trans hp
  obtain ⟨r,hr,hsig⟩ := readFacilityPattern_ok y (isScalar_false_of_ruleAction h.action) sig'
  refine ⟨sig',?_,hsig'.patterns⟩
  rw [readRule,hhead,ok_bind,readPatterns,hp']
  simp only [hr]
  exact congrArg Except.ok hsig

theorem Reached.read_of_status {y : Conversions} {ruleset rule : Node} {m m' : SignaturesType}
    {c code : RuleReaderStatusCode} (h : Reached y ruleset rule)
    (hx : readRule y rule = .error (.status c)) (hread : read y ruleset m = .ok (code,m')) :
    code = c := by
  obtain ⟨pre,hpre⟩ := h
  obtain ⟨m'',post,heq⟩ := hpre.read_eq_readRules m
  rw [heq,readRules,hx] at hread
  cases hread
  rfl

/-- The documents on which an exception leaves the reader. -/
theorem read_throws_iff (y : Conversions) (ruleset : Node) (m : SignaturesType) :
    (∃ e, read y ruleset m = .error e) ↔ ∃ rule, Reached y ruleset rule ∧ RuleRaises y rule := by
  constructor
  · intro ⟨e,h⟩
    rw [read_eq] at h
    cases hseq : ruleset.ruleSequence with
    | none =>
      rw [hseq] at h
      cases h
    | some rules =>
      rw [hseq] at h
      obtain ⟨pre,rule,post,rfl,hpre,hrule⟩ := readRules_exception h
      exact ⟨rule,⟨pre,⟨post,hseq⟩,hpre⟩,(exception_iff (readRule_throws y rule)).mp ⟨e,hrule⟩⟩
  · intro ⟨rule,⟨pre,hpre⟩,hraise⟩
    obtain ⟨e,he⟩ := (exception_iff (readRule_throws y rule)).mpr hraise
    obtain ⟨m',post,heq⟩ := hpre.read_eq_readRules m
    exact ⟨e,by rw [heq,readRules,he]⟩

/-- No unreported rule gets one of the three statuses. -/
theorem Unreported.not_rejected {y : Conversions} {rule : Node} (h : Unreported y rule)
    (hraise : ¬ RuleRaises y rule) : BadlyTyped y rule ∧
      ∀ code ∈ [RuleReaderStatusCode.brokenRuleStructure,.badMetaData,.badPattern],
        readRule y rule ≠ .error (.status code) := by
  cases h with
  | notMap hm =>
    refine ⟨.notMap hm,?_⟩
    intro code hcode hrule
    rcases readRule_notMap (y := y) hm with h | h
    · rw [h] at hrule
      cases hrule
    · rw [h] at hrule
      cases hrule
      simp at hcode
  | metaData hd hm => exact absurd (.inl (.inr ⟨hd,hm⟩)) hraise
  | keyword hsig hp hk => exact absurd (.inr ⟨_,hsig,hp,hk⟩) hraise
  | @id sig items item hsig hp hids hitem hn =>
    refine ⟨.id hsig.headed (by rw [hsig.protocol,hp]) hids hitem hn,?_⟩
    intro code _ hrule
    obtain ⟨sig',hok,_⟩ := readRule_facility hsig hp
    rw [hok] at hrule
    cases hrule

theorem BadlyTyped.rejected {y : Conversions} {rule : Node} (h : BadlyTyped y rule)
    (hn : ¬ Unreported y rule) : ∃ code, readRule y rule = .error (.status code) ∧
      (code = .badMetaData ∨ code = .badPattern) := by
  have hmap : rule.isMap = true := by
    cases hm : rule.isMap with
    | true => rfl
    | false => exact absurd (.notMap hm) hn
  cases hx : readRule y rule with
  | ok sig => exact absurd (h.unreported_of_denotes ((readRule_meets y rule).of_ok hx)) hn
  | error e =>
    cases e with
    | status code => exact ⟨code,rfl,readRule_status hx (h.headed hmap)⟩
    | exception e =>
      have hraise := (exception_iff (readRule_throws y rule)).mp ⟨e,hx⟩
      exact absurd hraise.unreported hn

/-- Every load reports badly typed rules through its status, unless it reaches one of
those that the reader lets pass, throws on or asks for an action. -/
theorem bad_types_reported_iff (y : Conversions) (ruleset : Node) (m : SignaturesType) :
    BadTypesReported y ruleset m ↔ ∀ rule, Reached y ruleset rule → ¬ Unreported y rule := by
  constructor
  · intro ⟨code,m',hread,hrules⟩ rule hreached hbad
    have hraise : ¬ RuleRaises y rule := by
      intro hr
      obtain ⟨e,he⟩ := (read_throws_iff y ruleset m).mpr ⟨rule,hreached,hr⟩
      rw [he] at hread
      cases hread
    obtain ⟨htyped,hnever⟩ := hbad.not_rejected hraise
    obtain ⟨hrule,hcode⟩ := hrules rule hreached htyped
    exact hnever code hcode hrule
  · intro h
    cases hread : read y ruleset m with
    | error e =>
      obtain ⟨rule,hreached,hraise⟩ := (read_throws_iff y ruleset m).mp ⟨e,hread⟩
      exact absurd hraise.unreported (h rule hreached)
    | ok r =>
      obtain ⟨code,m'⟩ := r
      refine ⟨code,m',hread,?_⟩
      intro rule hreached hbad
      obtain ⟨c,hc,hcode⟩ := hbad.rejected (h rule hreached)
      rw [hreached.read_of_status hc hread]
      refine ⟨hc,?_⟩
      rcases hcode with rfl | rfl <;> decide

def hopLimitInWordsRule : Node := Node.ofFields
  [("action",.scalar "drop"),("protocol",.scalar "GeoNetworking"),
   ("meta",Node.ofFields [("msg",.scalar "GBC with large max hop limit is detected."),
     ("sid",.scalar "2"),("rev",.scalar "1")]),
   ("ht",.scalar "GBC"),("mhl",.scalar "three")]

theorem hop_limit_in_words_throws :
    read decimalConversions (ruleDocument [hopLimitInWordsRule]) ∅ = .error .badConversion ∧
    ¬ BadTypesReported decimalConversions (ruleDocument [hopLimitInWordsRule]) ∅ := by
  have hread : read decimalConversions (ruleDocument [hopLimitInWordsRule]) ∅ =
      .error .badConversion := rfl
  refine ⟨hread,?_⟩
  intro ⟨code,m',h,_⟩
  rw [hread] at h
  cases h

end Mitvane
