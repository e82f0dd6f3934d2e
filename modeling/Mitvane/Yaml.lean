import Mitvane.PartialRun

/-! The part of yaml-cpp that the rule reader touches: document trees, subscripts
and conversions. Number conversions are parameters; everything else follows the
node kinds. -/
set_option autoImplicit false

namespace Mitvane

inductive Node where
  | undefined : Node
  | null : Node
  | scalar : String → Node
  | sequence : List Node → Node
  | map : List (Node × Node) → Node

inductive YamlException where
  | badConversion | badSubscript
  deriving DecidableEq, Repr

namespace Node

def isDefined : Node → Bool
  | .undefined => false
  | _ => true

def isScalar : Node → Bool
  | .scalar _ => true
  | _ => false

def isMap : Node → Bool
  | .map _ => true
  | _ => false

def isSequence : Node → Bool
  | .sequence _ => true
  | _ => false

/-- Only a scalar key can equal a string key. -/
def isText (key : String) : Node → Bool
  | .scalar text => text = key
  | _ => false

/-- The value under `key`: the first entry with that key, undefined without one.
The other node kinds have no string keys. -/
def field (node : Node) (key : String) : Node :=
  match node with
  | .map entries => ((entries.find? (fun e => e.1.isText key)).map Prod.snd).getD .undefined
  | _ => .undefined

/-- `node[key]` on a mutable node. An undefined, null or sequence node turns into a
map without the key; the inserted undefined value is not visible to the reader. -/
def subscript (node : Node) (key : String) : Except YamlException Node :=
  match node with
  | .scalar _ => .error .badSubscript
  | _ => .ok (node.field key)

def asString : Node → Except YamlException String
  | .scalar text => .ok text
  | .null => .ok "null"
  | _ => .error .badConversion

theorem subscript_eq_ok {node value : Node} {key : String} :
    node.subscript key = .ok value ↔ node.isScalar = false ∧ value = node.field key := by
  cases node <;> simp [subscript,isScalar,eq_comm]

theorem subscript_eq_error {node : Node} {key : String} {e : YamlException} :
    node.subscript key = .error e ↔ node.isScalar = true ∧ e = .badSubscript := by
  cases node <;> simp [subscript,isScalar,eq_comm]

theorem isScalar_iff {node : Node} : node.isScalar = true ↔ ∃ text, node = .scalar text := by
  cases node <;> simp [isScalar]

theorem isScalar_false_of_isMap {node : Node} (h : node.isMap = true) :
    node.isScalar = false := by
  cases node <;> simp_all [isMap,isScalar]

theorem isMap_of_field_scalar {node : Node} {key text : String}
    (h : node.field key = .scalar text) : node.isMap = true := by
  cases node <;> simp_all [field,isMap]

end Node

/-- Scalar text to number; `none` when the text is not a number of that type. -/
structure Conversions where
  int : String → Option Int
  uint32 : String → Option UInt32
  uint16 : String → Option UInt16

def Node.asNumber {α : Type} (convert : String → Option α) : Node → Except YamlException α
  | .scalar text =>
    match convert text with
    | some n => .ok n
    | none => .error .badConversion
  | _ => .error .badConversion

theorem Node.asNumber_eq_ok {α : Type} {convert : String → Option α} {node : Node} {n : α} :
    node.asNumber convert = .ok n ↔ ∃ text, node = .scalar text ∧ convert text = some n := by
  cases node with
  | scalar text => cases h : convert text <;> simp [asNumber,h]
  | _ => simp [asNumber]

theorem Node.asNumber_eq_error {α : Type} {convert : String → Option α} {node : Node}
    {e : YamlException} (h : node.asNumber convert = .error e) : e = .badConversion := by
  cases node with
  | scalar text =>
    cases hc : convert text with
    | none => simp [asNumber,hc] at h; exact h.symm
    | some n => simp [asNumber,hc] at h
  | _ => simp [asNumber] at h; exact h.symm

theorem Node.asString_eq_error {node : Node} {e : YamlException}
    (h : node.asString = .error e) : e = .badConversion := by
  cases node <;> simp_all [asString]

theorem Node.asString_scalar {node : Node} {text : String} (hs : node.isScalar = true)
    (h : node.asString = .ok text) : node = .scalar text := by
  cases node <;> simp_all [asString,isScalar]

/-- How a reader stops early: with its own status, or by an exception passing through. -/
inductive Failure (σ : Type) where
  | status : σ → Failure σ
  | exception : YamlException → Failure σ
  deriving DecidableEq, Repr

def liftYaml {σ α : Type} (x : Except YamlException α) : Except (Failure σ) α :=
  x.mapError .exception

@[simp] theorem liftYaml_eq_ok {σ α : Type} {x : Except YamlException α} {a : α} :
    (liftYaml x : Except (Failure σ) α) = .ok a ↔ x = .ok a := by
  simp [liftYaml]

@[simp] theorem liftYaml_eq_error {σ α : Type} {x : Except YamlException α} {e : Failure σ} :
    (liftYaml x : Except (Failure σ) α) = .error e ↔ ∃ e₀, x = .error e₀ ∧ .exception e₀ = e := by
  simp [liftYaml]

/-- `std::transform` with `::tolower`. -/
def lower (s : String) : String := String.ofList (s.toList.map Char.toLower)

end Mitvane
