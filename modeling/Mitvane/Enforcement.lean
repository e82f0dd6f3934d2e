import Mitvane.Startup
import Mitvane.KeywordMeaning

/-! From the rule file to the wire: which datagrams a started gateway forwards, in terms
of the rules of the document. -/
set_option autoImplicit false

namespace Mitvane
open PartialRun
variable {Chunk Certificate Area Real Fix : Type}

/-- The rules that a document puts in force: all in front of the first broken one. -/
structure InForce (ruleset : Node) (rules : List Node) : Prop where
  front : rules <+: ruleset.ruleSequence.getD []
  wellFormed : ∀ rule ∈ rules, RuleGrammar rule
  longest : ∀ others, others <+: ruleset.ruleSequence.getD [] →
    (∀ rule ∈ others, RuleGrammar rule) → others <+: rules

theorem InForce.unique {ruleset : Node} {rules rules' : List Node} (h : InForce ruleset rules)
    (h' : InForce ruleset rules') : rules = rules' :=
  (h'.longest rules h.front h.wellFormed).eq_of_length_le
    (h.longest rules' h'.front h'.wellFormed).length_le

theorem inForce_of_broken {ruleset bad : Node} {pre post : List Node}
    (hseq : ruleset.ruleSequence = some (pre ++ bad :: post))
    (hpre : ∀ rule ∈ pre, RuleGrammar rule) (hbad : ¬ RuleGrammar bad) : InForce ruleset pre := by
  refine ⟨by simp [hseq],hpre,?_⟩
  intro others hothers hall
  rw [hseq,Option.getD_some] at hothers
  have hfront : pre <+: pre ++ bad :: post := List.prefix_append pre _
  rcases List.prefix_or_prefix_of_prefix hothers hfront with h | ⟨more,rfl⟩
  · exact h
  · cases more with
    | nil => simp
    | cons rule more =>
      rw [List.prefix_append_right_inj,List.cons_prefix_cons] at hothers
      exact absurd (hothers.1 ▸ hall rule (by simp)) hbad

/-- A GeoNetworking rule with the action drop says what the decoded frame is like. -/
def DroppedBy (y : Conversions) (rules : List Node) (v : Vanetza Chunk Certificate Area)
    (isWithin : IsWithin Fix) (a : Arrival Area Fix) : Prop :=
  ∃ rule ∈ rulesOf .geoNetworking rules, ruleAction rule = some .drop ∧
    ∃ sig d, Denotes y rule sig ∧ decodeArrival v 0 a = .ok d ∧
      Matches isWithin a.fix d.context.geonetData sig

theorem Spells.unique {y : Conversions} {key key' : String} {node : Node} {p q : PatternType}
    (hp : Spells y key node p) (hq : Spells y key' node q) (hk : key = key') : p = q := by
  cases hp with
  | nh _ =>
    cases hq with
    | nh _ => rfl
    | _ => exact absurd hk (by decide)
  | ht _ =>
    cases hq with
    | ht _ => rfl
    | _ => exact absurd hk (by decide)
  | mhl hn =>
    cases hq with
    | mhl hn' => exact congrArg PatternType.int (Option.some.inj (hn.symm.trans hn'))
    | _ => exact absurd hk (by decide)
  | destinationArea hta htb ha hb =>
    cases hq with
    | destinationArea hta' htb' ha' hb' =>
      cases hta.symm.trans hta'
      cases htb.symm.trans htb'
      cases ha.symm.trans ha'
      cases hb.symm.trans hb'
      rfl
    | _ => exact absurd hk (by decide)
  | allowedSoRange _ _ hta htb ha hb =>
    cases hq with
    | allowedSoRange _ _ hta' htb' ha' hb' =>
      cases hta.symm.trans hta'
      cases htb.symm.trans htb'
      cases ha.symm.trans ha'
      cases hb.symm.trans hb'
      rfl
    | _ => exact absurd hk (by decide)

theorem Carries.unique {y : Conversions} {rule : Node} {keys : List String}
    {sig sig' : Signature} (h : Carries y rule keys sig) (h' : Carries y rule keys sig') :
    sig.patterns = sig'.patterns := by
  apply Finmap.ext_lookup
  intro key
  cases hl : sig.patterns.lookup key with
  | none =>
    have hnot : key ∉ sig.patterns := Finmap.lookup_eq_none.mp hl
    rw [h.keys,← h'.keys] at hnot
    exact (Finmap.lookup_eq_none.mpr hnot).symm
  | some p =>
    have hmem : key ∈ sig.patterns := Finmap.mem_iff.mpr ⟨p,hl⟩
    rw [h.keys,← h'.keys] at hmem
    obtain ⟨q,hq⟩ := Finmap.mem_iff.mp hmem
    rw [hq,(h.values key p hl).unique (h'.values key q hq) rfl]

theorem Denotes.unique {y : Conversions} {rule : Node} {sig sig' : Signature}
    (h : Denotes y rule sig) (h' : Denotes y rule sig') : sig = sig' := by
  have haction : sig.action = sig'.action := Option.some.inj (h.action.symm.trans h'.action)
  have hprotocol : sig.protocol = sig'.protocol :=
    Option.some.inj (h.protocol.symm.trans h'.protocol)
  have hmsg : sig.metaData.msg = sig'.metaData.msg := Node.scalar.inj (h.msg.symm.trans h'.msg)
  have hsid : sig.metaData.sid = sig'.metaData.sid := by
    obtain ⟨text,ht,hs⟩ := h.sid
    obtain ⟨text',ht',hs'⟩ := h'.sid
    rw [ht] at ht'
    cases ht'
    exact Option.some.inj (hs.symm.trans hs')
  have hrev : sig.metaData.rev = sig'.metaData.rev := by
    obtain ⟨text,ht,hs⟩ := h.rev
    obtain ⟨text',ht',hs'⟩ := h'.rev
    rw [ht] at ht'
    cases ht'
    exact Option.some.inj (hs.symm.trans hs')
  have hpatterns : sig.patterns = sig'.patterns :=
    h.patterns.unique (hprotocol ▸ h'.patterns)
  obtain ⟨action,protocol,⟨msg,sid,rev⟩,patterns⟩ := sig
  obtain ⟨action',protocol',⟨msg',sid',rev'⟩,patterns'⟩ := sig'
  cases haction
  cases hprotocol
  cases hmsg
  cases hsid
  cases hrev
  cases hpatterns
  rfl

theorem exists_mem_of_denotes {y : Conversions} {rules : List Node} {sigs : List Signature}
    {rule : Node} (h : List.Forall₂ (Denotes y) rules sigs) (hr : rule ∈ rules) :
    ∃ sig ∈ sigs, Denotes y rule sig := by
  induction h with
  | nil => cases hr
  | @cons rule' sig rules sigs hd _ ih =>
    rcases List.mem_cons.mp hr with rfl | hr
    · exact ⟨sig,by simp,hd⟩
    · obtain ⟨s,hs,hd⟩ := ih hr
      exact ⟨s,by simp [hs],hd⟩

theorem read_inForce {y : Conversions} {ruleset : Node} {m : SignaturesType}
    {code : RuleReaderStatusCode} (h : read y ruleset ∅ = .ok (code,m)) :
    ∃ rules, InForce ruleset rules ∧ ExtendedBy y rules ∅ m := by
  by_cases hc : code = .success
  · subst hc
    obtain ⟨rules,hseq,hg,hext⟩ := read_succeeded h
    exact ⟨rules,⟨by simp [hseq],hg,fun others hothers _ => by simpa [hseq] using hothers⟩,hext⟩
  · obtain ⟨pre,hcase,hext⟩ := read_failed h hc
    refine ⟨pre,?_,hext⟩
    rcases hcase with ⟨hseq,rfl⟩ | ⟨bad,post,hseq,hpre,hbad⟩
    · exact ⟨by simp,by simp,fun others hothers _ => by simpa [hseq] using hothers⟩
    · exact inForce_of_broken hseq hpre hbad

theorem ruleAction_cases {rule : Node} {action : Action} (h : ruleAction rule = some action) :
    action = .alert ∨ action = .drop := by
  unfold ruleAction Node.named at h
  split at h
  · rw [actionNames_lookup] at h
    split at h
    · cases h
    · rename_i hs
      cases h
      cases ha : actionOfText _ with
      | alert => exact .inl rfl
      | drop => exact .inr rfl
      | notSupportedAction => exact absurd ha hs
  · cases h

section
variable {y : Conversions} {rules : List Node} {m : SignaturesType}
  {v : Vanetza Chunk Certificate Area} {isWithin : IsWithin Fix}

theorem passes_iff_not_dropped (hext : ExtendedBy y rules ∅ m) (hprod : Produced y m)
    (localMid : MacAddress) (a : Arrival Area Fix) :
    passes v isWithin localMid m a = true ↔
      accepts localMid a.frame.header = true ∧ ¬ DroppedBy y rules v isWithin a := by
  obtain ⟨sigs,hsigs,hof,_⟩ := hext.loaded .geoNetworking (.inl rfl)
  have hof' : m.of .geoNetworking = sigs := by rw [hof]; rfl
  rw [passes_eq,Bool.and_eq_true]
  refine and_congr_right fun _ => ?_
  cases hd : decodeArrival v 0 a with
  | error e => simp [frameReport,hd,DroppedBy]
  | ok d =>
    obtain ⟨report,m',hdetect,hreport⟩ :=
      hprod.detect_eq_filter isWithin a.fix d.context.geonetData
    simp only [frameReport,hd,hdetect,hreport,hof',List.all_eq_true,List.mem_filter,
      decide_eq_true_eq]
    constructor
    · intro hall hdrop
      obtain ⟨rule,hrule,haction,sig,d',hden,hd',hmatch⟩ := hdrop
      cases hd.symm.trans hd'
      obtain ⟨sig',hsig',hden'⟩ := exists_mem_of_denotes hsigs hrule
      cases hden.unique hden'
      have halert := hall sig ⟨hsig',by
        rw [reported_eq_matches hden.conforms]
        exact decide_eq_true hmatch⟩
      rw [hden.action,halert] at haction
      cases haction
    · intro hnone sig hmem
      obtain ⟨hsig,hrep⟩ := hmem
      obtain ⟨rule,hrule,hden⟩ := exists_denotes_of_mem hsigs hsig
      rcases ruleAction_cases hden.action with h | h
      · exact h
      · refine absurd ⟨rule,hrule,h ▸ hden.action,sig,d,hden,hd,?_⟩ hnone
        rw [reported_eq_matches hden.conforms] at hrep
        exact of_decide_eq_true hrep

end

theorem enableAll_frame (s : IdpsState Chunk) (apps : AppParsers Chunk) :
    ∃ parsers, enableAll s apps = { s with appLayerParsers := parsers } := by
  induction apps generalizing s with
  | nil => exact ⟨s.appLayerParsers,rfl⟩
  | cons entry apps ih =>
    obtain ⟨parsers,hp⟩ := ih (enable s entry.2)
    refine ⟨parsers,hp.trans ?_⟩
    unfold enable
    split <;> rfl

open scoped Classical in
/-- A started gateway forwards the frames of the source link that no rule in force drops,
in their order and as they came, if there is a GeoNetworking rule in force. -/
theorem document_enforced (y : Conversions) (env : Environment Chunk Real) (o : Options Real)
    (g t : Gateway Chunk Real) (v : Vanetza Chunk Certificate Area)
    (isWithin : IsWithin (PositionFix Real)) (r : GpsReals Real)
    (events : List (Event Area Real)) (hstart : start y env o = .ok g)
    (h : Reaches (Gateway.step v isWithin r) g events t) :
    ∃ rules, (∀ others, InForce o.ruleset others ↔ others = rules) ∧
      (rulesOf .geoNetworking rules ≠ [] → t.context.sent =
        ((observed v r g.positioning.positionFix events).filter (fun a =>
          accepts env.localMid a.frame.header ∧ ¬ DroppedBy y rules v isWithin a)).map
            (fun a => a.frame.packet.buffer)) := by
  have hs := start_ok hstart
  obtain ⟨code,m,hread,hctx⟩ := hs.context
  obtain ⟨rules,hforce,hext⟩ := read_inForce hread
  refine ⟨rules,fun others => ⟨fun h => h.unique hforce,fun h => h ▸ hforce⟩,?_⟩
  intro hne
  obtain ⟨parsers,hparsers⟩ := enableAll_frame (.initial env.localMid m)
    (collectParsers env o o.appParsers [])
  rw [hparsers] at hctx
  have hgn : Protocol.geoNetworking ∈ g.context.signatures := by
    obtain ⟨sigs,_,_,hmem⟩ := hext.loaded .geoNetworking (.inl rfl)
    rw [hctx]
    exact hmem.mpr (.inr hne)
  have hsent := (Gateway.reaches_filtered h ⟨hs.source.1,hs.destination.1⟩ hgn).sent
  have hmid : g.context.localMid = env.localMid := by rw [hctx]; rfl
  have hsig : g.context.signatures = m := by rw [hctx]; rfl
  have hnone : g.context.sent = [] := by rw [hctx]; rfl
  rw [hsent,hnone,List.nil_append,hmid,hsig]
  congr 1
  apply List.filter_congr
  intro a _
  rw [Bool.eq_iff_iff,passes_iff_not_dropped hext (.read .empty hread)]
  simp

def farDatagram : ByteBuffer :=
  datagramOf (plainBytes 1 (commonBytes 2 0x40 10 ++ [0,0,0,0] ++
    positionBytes [0,0x98,0x96,0x80] [0,0x98,0x96,0x80] ++ List.replicate 16 0 ++ [7,0xd1,0,0]))

def brokenOptions : Options Int := { gatewayOptions "static" ["ca"] with ruleset := brokenDocument }

theorem start_broken : start decimalConversions plainEnvironment brokenOptions =
    .ok (startedGateway (.stored staticFix) ["ca"]) := rfl

open scoped Classical in
theorem document_enforced_far :
    ∃ t, Reaches (Gateway.step etherWire flatFix intReals)
        (startedGateway (.stored staticFix) ["ca"])
        [sourceDatagram farDatagram,sourceDatagram camDatagram] t ∧
      t.context.sent = [camDatagram] ∧
      ∃ rules, (∀ others, InForce brokenDocument others ↔ others = rules) ∧
        (rulesOf .geoNetworking rules ≠ [] → t.context.sent =
          ((observed etherWire intReals staticFix [sourceDatagram farDatagram,sourceDatagram camDatagram]
            ).filter (fun a => accepts 0 a.frame.header ∧
              ¬ DroppedBy decimalConversions rules etherWire flatFix a)).map
            (fun a => a.frame.packet.buffer)) := by
  have hreach : Reaches (Gateway.step etherWire flatFix intReals)
      (startedGateway (.stored staticFix) ["ca"])
      ([] ++ [sourceDatagram farDatagram] ++ [sourceDatagram camDatagram]) _ :=
    .snoc (.snoc .nil rfl) rfl
  exact ⟨_,hreach,rfl,document_enforced decimalConversions plainEnvironment
    brokenOptions _ _ etherWire flatFix intReals _ start_broken hreach⟩

end Mitvane
