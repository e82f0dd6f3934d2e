import Mitvane.Signature
import Mitvane.DetectionContext
import Mitvane.PartialRun

set_option autoImplicit false

namespace Mitvane
open PartialRun
variable {Area Fix : Type}

/-- `vanetza::security::is_within` for a circle: latitude and longitude of the
point, centre and radius in metres of the circle. -/
abbrev IsWithin (Fix : Type) := Int → Int → Fix → Int → Bool

inductive DetectionResult where
  | detected | notDetected
  deriving DecidableEq, Repr

/-- The stored value of the enumeration, which an indeterminate variable need not have. -/
def DetectionResult.code : DetectionResult → UInt32
  | .detected => 0
  | .notDetected => 1

structure DetectionReport where
  sigs : List Signature
  result : UInt32

inductive Stop where
  | badGet : Stop
  | skip : String → Stop
  deriving DecidableEq, Repr

def transformNh (nh : String) : Option NextHeaderBasic :=
  if nh = "common" then some .common
  else if nh = "secure" then some .secured
  else none

def transformHt (ht : String) : Option UInt8 :=
  if ht = "TSB" then some HeaderType.tsbMultiHop.raw
  else if ht = "SHB" then some HeaderType.tsbSingleHop.raw
  else if ht = "GBC" then some (HeaderType.geoBroadcastCircle.raw |||
    HeaderType.geoBroadcastRect.raw ||| HeaderType.geoBroadcastElip.raw)
  else none

def sidText (sig : Signature) : String := "[sid: " ++ toString sig.metaData.sid ++ "]"

def patternUnder {α β : Type} (key : String) (get : PatternType → Option α)
    (transform : α → Except Stop β) (sig : Signature) : Except Stop (Option β) :=
  match sig.patterns.lookup key with
  | none => .ok none
  | some p =>
    match get p with
    | none => .error .badGet
    | some a => some <$> transform a

def orSkip {β : Type} (message : String) : Option β → Except Stop β
  | some b => .ok b
  | none => .error (.skip message)

structure Wanted where
  nh : Option NextHeaderBasic
  ht : Option UInt8
  mhl : Option Int
  allowedSoRange : Option GeonetAllowedSoRange

def Signature.nh (sig : Signature) : Except Stop (Option NextHeaderBasic) :=
  patternUnder "nh" PatternType.getString (fun text =>
    orSkip (sidText sig ++ " Detection skipped: Invalid next header") (transformNh text)) sig

def Signature.ht (sig : Signature) : Except Stop (Option UInt8) :=
  patternUnder "ht" PatternType.getString (fun text =>
    orSkip (sidText sig ++ " Detection skipped: Invalid header type") (transformHt text)) sig

def Signature.mhl (sig : Signature) : Except Stop (Option Int) :=
  patternUnder "mhl" PatternType.getInt .ok sig

def Signature.allowedSoRange (sig : Signature) : Except Stop (Option GeonetAllowedSoRange) :=
  patternUnder "allowed_so_range" PatternType.getAllowedSoRange (fun range =>
    orSkip (sidText sig ++ "Detection Skipped: " ++
      "Shapes except for circle as allowed_so_range's shape is currently not supported")
      (if range.shape = .circle then some range else none)) sig

/-- No branch looks at `destination_area`. -/
def Signature.wanted (sig : Signature) : Except Stop Wanted := do
  let nh ← sig.nh
  let ht ← sig.ht
  let mhl ← sig.mhl
  let allowedSoRange ← sig.allowedSoRange
  pure ⟨nh,ht,mhl,allowedSoRange⟩

def countIf {α : Type} (test : α → Bool) : Option α → Nat
  | none => 0
  | some a => if test a then 1 else 0

def Wanted.count (isWithin : IsWithin Fix) (fix : Fix) (data : GeonetData Area)
    (w : Wanted) : Nat :=
  countIf (fun nh => nh = data.nextHeader) w.nh +
  countIf (fun ht : UInt8 => ht >>> 4 = data.headerType.raw >>> 4) w.ht +
  countIf (fun mhl : Int => mhl ≤ data.maximumHopLimit.toNat) w.mhl +
  countIf (fun range => !isWithin data.sourcePosition.latitude data.sourcePosition.longitude
    fix range.distanceA) w.allowedSoRange

def detectionCount (isWithin : IsWithin Fix) (fix : Fix) (data : GeonetData Area)
    (sig : Signature) : Except Stop Nat :=
  Wanted.count isWithin fix data <$> sig.wanted

def detectSignatures (isWithin : IsWithin Fix) (fix : Fix) (data : GeonetData Area) :
    List Signature → Except Fault (List Signature)
  | [] => .ok []
  | sig :: sigs =>
    match detectionCount isWithin fix data sig with
    | .error .badGet => .error .badGet
    | .error (.skip _) => detectSignatures isWithin fix data sigs
    | .ok count => do
      let matched ← detectSignatures isWithin fix data sigs
      pure (if count = StdMap.size sig.patterns then sig :: matched else matched)

/-- The list is copied out of the map by a subscript, which may insert an entry. -/
def detect (isWithin : IsWithin Fix) (fix : Fix) (data : GeonetData Area)
    (signatures : SignaturesType) : Except Fault (DetectionReport × SignaturesType) := do
  let (geonetSignatures,signatures) := StdMap.subscript signatures .geoNetworking []
  let matched ← detectSignatures isWithin fix data geonetSignatures
  pure (⟨matched,DetectionResult.detected.code⟩,signatures)

end Mitvane
