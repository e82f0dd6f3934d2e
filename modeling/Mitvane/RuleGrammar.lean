import Mitvane.RuleReader

/-! The rule language as a grammar over document trees, and what a rule denotes.
Nothing here follows the order in which the reader looks at the fields. -/
set_option autoImplicit false

namespace Mitvane
open PartialRun

def conditionKeywords : List String := ["nh","ht","mhl","destination_area","allowed_so_range"]

theorem geonetKeywords_eq : geonetKeywords = conditionKeywords := rfl

def actionNames : List (String × Action) := [("alert",.alert),("drop",.drop)]

def protocolAliases : List (String × Protocol) :=
  [("geonetworking",.geoNetworking),("geonet",.geoNetworking),("btp",.btp),
   ("facility",.facility),("ca",.ca),("cam",.ca),("den",.den),("denm",.den),
   ("spat",.spat),("spatem",.spat),("tlm",.spat),
   ("map",.map),("mapem",.map),("rlt",.map)]

/-- What the text of a scalar field names, in any letter case. -/
def Node.named {α : Type} (names : List (String × α)) : Node → Option α
  | .scalar text => names.lookup (lower text)
  | _ => none

def ruleAction (rule : Node) : Option Action := (rule.field "action").named actionNames

def ruleProtocol (rule : Node) : Option Protocol := (rule.field "protocol").named protocolAliases

def ScalarField (node : Node) (key : String) : Prop := ∃ text, node.field key = .scalar text

structure MetaGrammar (node : Node) : Prop where
  isMap : node.isMap = true
  msg : ScalarField node "msg"
  sid : ScalarField node "sid"
  rev : ScalarField node "rev"

structure DestinationAreaGrammar (node : Node) : Prop where
  isMap : node.isMap = true
  distanceA : ScalarField node "destination_a"
  distanceB : ScalarField node "destination_b"

structure AllowedSoRangeGrammar (node : Node) : Prop where
  isMap : node.isMap = true
  shape : ∃ text, node.field "shape" = .scalar text ∧ lower text = "circle"
  distanceA : ScalarField node "distance_a"
  distanceB : ScalarField node "distance_b"

/-- The keyword `mhl` is only constrained by its conversion to a number. -/
structure KeywordGrammar (key : String) (node : Node) : Prop where
  nh : key = "nh" → ∃ text ∈ ["common","secure"], node = .scalar text
  ht : key = "ht" → ∃ text ∈ ["TSB","GBC","SHB"], node = .scalar text
  destinationArea : key = "destination_area" → DestinationAreaGrammar node
  allowedSoRange : key = "allowed_so_range" → AllowedSoRangeGrammar node

structure RuleGrammar (rule : Node) : Prop where
  action : ∃ a, ruleAction rule = some a
  protocol : ∃ p, ruleProtocol rule = some p
  metaData : MetaGrammar (rule.field "meta")
  geonet : ruleProtocol rule = some .geoNetworking →
    ∀ key ∈ conditionKeywords, (rule.field key).isDefined = true →
      KeywordGrammar key (rule.field key)

def DocumentGrammar (ruleset : Node) : Prop :=
  ruleset.isMap = true ∧
    ∃ rules, ruleset.field "rules" = .sequence rules ∧ ∀ rule ∈ rules, RuleGrammar rule

/-- A node under a keyword and the pattern it is written for. -/
inductive Spells (y : Conversions) : String → Node → PatternType → Prop where
  | nh {text : String} : text ∈ ["common","secure"] → Spells y "nh" (.scalar text) (.string text)
  | ht {text : String} : text ∈ ["TSB","GBC","SHB"] → Spells y "ht" (.scalar text) (.string text)
  | mhl {text : String} {n : Int} : y.int text = some n → Spells y "mhl" (.scalar text) (.int n)
  | destinationArea {node : Node} {ta tb : String} {a b : Int} :
      node.field "destination_a" = .scalar ta → node.field "destination_b" = .scalar tb →
      y.int ta = some a → y.int tb = some b →
      Spells y "destination_area" node (.destinationArea ⟨a,b⟩)
  | allowedSoRange {node : Node} {ts ta tb : String} {a b : Int} :
      node.field "shape" = .scalar ts → lower ts = "circle" →
      node.field "distance_a" = .scalar ta → node.field "distance_b" = .scalar tb →
      y.int ta = some a → y.int tb = some b →
      Spells y "allowed_so_range" node (.allowedSoRange ⟨.circle,a,b⟩)

/-- `sig` holds exactly the patterns written in `rule` under the given keys. -/
structure Carries (y : Conversions) (rule : Node) (keys : List String) (sig : Signature) : Prop where
  keys : ∀ key, key ∈ sig.patterns ↔ key ∈ keys ∧ (rule.field key).isDefined = true
  values : ∀ key p, sig.patterns.lookup key = some p → Spells y key (rule.field key) p

/-- `sig` is what `rule` says. Only GeoNetworking rules have patterns that are loaded. -/
structure Denotes (y : Conversions) (rule : Node) (sig : Signature) : Prop where
  action : ruleAction rule = some sig.action
  protocol : ruleProtocol rule = some sig.protocol
  msg : (rule.field "meta").field "msg" = .scalar sig.metaData.msg
  sid : ∃ text, (rule.field "meta").field "sid" = .scalar text ∧
    y.uint32 text = some sig.metaData.sid
  rev : ∃ text, (rule.field "meta").field "rev" = .scalar text ∧
    y.uint16 text = some sig.metaData.rev
  patterns : Carries y rule (if sig.protocol = .geoNetworking then conditionKeywords else []) sig

def rulesOf (p : Protocol) (rules : List Node) : List Node :=
  rules.filter (fun rule => ruleProtocol rule = some p)

/-- `m'` is `m` extended by the signatures of `rules` and by nothing else. -/
structure ExtendedBy (y : Conversions) (rules : List Node) (m m' : SignaturesType) : Prop where
  loaded : ∀ p, p = .geoNetworking ∨ p = .facility → ∃ sigs,
    List.Forall₂ (Denotes y) (rulesOf p rules) sigs ∧ m'.of p = m.of p ++ sigs ∧
    (p ∈ m' ↔ p ∈ m ∨ rulesOf p rules ≠ [])
  others : ∀ p, p ≠ .geoNetworking → p ≠ .facility → m'.lookup p = m.lookup p

end Mitvane
