import Mitvane.Signature
import Mitvane.Yaml

set_option autoImplicit false

namespace Mitvane
open PartialRun

/-- What the keyword loop has built so far, with the lines it wrote to `std::cerr`. -/
structure PatternRead where
  sig : Signature
  cerr : List String

def Signature.setPattern (sig : Signature) (key : String) (p : PatternType) : Signature :=
  { sig with patterns := sig.patterns.insert key p }

def notSupported (key : String) : String := "Keyword: " ++ key ++ " is not supported"

/-- A keyword the reader does not know leaves a line on `std::cerr` and no pattern. -/
def PatternRead.store (acc : PatternRead) (key : String) : Option PatternType → PatternRead
  | some p => { acc with sig := acc.sig.setPattern key p }
  | none => { acc with cerr := acc.cerr ++ [notSupported key] }

def requireScalar (node : Node) (undefinedText badText : String) :
    Except (Failure String) Unit := do
  require node.isDefined (.status undefinedText)
  require node.isScalar (.status badText)

def readNh (node : Node) : Except (Failure String) PatternType := do
  let nh ← liftYaml node.asString
  require (nh = "common" || nh = "secure") (.status "nh must be common or secure")
  pure (.string nh)

def readHt (node : Node) : Except (Failure String) PatternType := do
  let ht ← liftYaml node.asString
  require (ht = "TSB" || ht = "GBC" || ht = "SHB") (.status "ht must be TSB, GBC or SHB")
  pure (.string ht)

def readMhl (y : Conversions) (node : Node) : Except (Failure String) PatternType := do
  let mhl ← liftYaml (node.asNumber y.int)
  pure (.int mhl)

def readDestinationArea (y : Conversions) (node : Node) : Except (Failure String) PatternType := do
  require node.isMap (.status "Bad destination area")
  let distanceANode ← liftYaml (node.subscript "destination_a")
  requireScalar distanceANode "Destination a is required for destination_area"
    "Bad destination a for destination_area"
  let distanceBNode ← liftYaml (node.subscript "destination_b")
  -- the source repeats the text of destination_a here
  requireScalar distanceBNode "Destination a is required for destination_area"
    "Bad destination b for destination_area"
  let distanceA ← liftYaml (distanceANode.asNumber y.int)
  let distanceB ← liftYaml (distanceBNode.asNumber y.int)
  pure (.destinationArea ⟨distanceA,distanceB⟩)

def readAllowedSoRange (y : Conversions) (node : Node) : Except (Failure String) PatternType := do
  require node.isMap (.status "Bad allowed so range")
  let shapeNode ← liftYaml (node.subscript "shape")
  requireScalar shapeNode "Shape is required for allowed_so_range"
    "Bad shape for allowed_so_range"
  let shape ← liftYaml shapeNode.asString
  require (lower shape = "circle") (.status
    "Shapes except for circle as allowed_so_range's shape is currently not supported")
  let distanceANode ← liftYaml (node.subscript "distance_a")
  requireScalar distanceANode "Distance a is required for allowed_so_range"
    "Bad distance a for allowed_so_range"
  let distanceBNode ← liftYaml (node.subscript "distance_b")
  requireScalar distanceBNode "Distance b is required for allowed_so_range"
    "Bad distance b for allowed_so_range"
  let distanceA ← liftYaml (distanceANode.asNumber y.int)
  let distanceB ← liftYaml (distanceBNode.asNumber y.int)
  pure (.allowedSoRange ⟨.circle,distanceA,distanceB⟩)

/-- The chain of comparisons on the keyword; `none` is the branch that only prints. -/
def readGeonetKeyword (y : Conversions) (key : String) (node : Node) :
    Except (Failure String) (Option PatternType) :=
  if key = "nh" then some <$> readNh node
  else if key = "ht" then some <$> readHt node
  else if key = "mhl" then some <$> readMhl y node
  else if key = "destination_area" then some <$> readDestinationArea y node
  else if key = "allowed_so_range" then some <$> readAllowedSoRange y node
  else pure none

def readAllowedIds (y : Conversions) (node : Node) : Except (Failure String) PatternType :=
  match node with
  | .sequence items => do
    -- each id goes through a signed int before it is stored as uint32_t
    let ids ← items.mapM (fun item => liftYaml (item.asNumber y.int))
    pure (.facilityIds (ids.map UInt32.ofInt))
  | _ => .error (.status "Bad allowed ids")

def readFacilityKeyword (y : Conversions) (key : String) (node : Node) :
    Except (Failure String) (Option PatternType) :=
  if key = "allowed_ids" then some <$> readAllowedIds y node else pure none

/-- The loop both pattern readers share: keys are looked up, not walked. -/
def readKeywords (readKeyword : String → Node → Except (Failure String) (Option PatternType))
    (rules : Node) : List String → PatternRead → Except (Failure String) PatternRead
  | [], acc => .ok acc
  | key :: keys, acc => do
    let node ← liftYaml (rules.subscript key)
    if node.isDefined then
      let acc' ← acc.store key <$> readKeyword key node
      readKeywords readKeyword rules keys acc'
    else
      readKeywords readKeyword rules keys acc

def readGeonetPattern (y : Conversions) (rules : Node) (sig : Signature) :
    Except (Failure String) PatternRead :=
  readKeywords (readGeonetKeyword y) rules geonetKeywords ⟨sig,[]⟩

/-- The source walks `geonet_keywords` here as well, not `facility_keywords`. -/
def readFacilityPattern (y : Conversions) (rules : Node) (sig : Signature) :
    Except (Failure String) PatternRead :=
  readKeywords (readFacilityKeyword y) rules geonetKeywords ⟨sig,[]⟩

end Mitvane
