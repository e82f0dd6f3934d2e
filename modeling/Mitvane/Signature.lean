import Mitvane.StdMap

set_option autoImplicit false

namespace Mitvane

inductive Action where
  | drop | alert | notSupportedAction
  deriving DecidableEq, Repr

inductive Protocol where
  | geoNetworking | btp | facility | ca | den | map | spat | notSupportedProtocol
  deriving DecidableEq, Repr

inductive AllowedSoRangeShape where
  | circle
  deriving DecidableEq, Repr

structure MetaData where
  msg : String
  sid : UInt32
  rev : UInt16
  deriving DecidableEq, Repr

def geonetKeywords : List String :=
  ["nh","ht","mhl","destination_area","allowed_so_range"]

structure GeonetDestinationArea where
  distanceA : Int
  distanceB : Int
  deriving DecidableEq, Repr

structure GeonetAllowedSoRange where
  shape : AllowedSoRangeShape
  distanceA : Int
  distanceB : Int
  deriving DecidableEq, Repr

/-- The alternatives of the variant stored under a keyword. -/
inductive PatternType where
  | int : Int → PatternType
  | string : String → PatternType
  | destinationArea : GeonetDestinationArea → PatternType
  | allowedSoRange : GeonetAllowedSoRange → PatternType
  | facilityIds : List UInt32 → PatternType
  deriving DecidableEq, Repr

/-- Typed access to the variant; `none` stands for `boost::bad_get`. -/
def PatternType.getInt : PatternType → Option Int
  | .int n => some n
  | _ => none

def PatternType.getString : PatternType → Option String
  | .string s => some s
  | _ => none

def PatternType.getAllowedSoRange : PatternType → Option GeonetAllowedSoRange
  | .allowedSoRange r => some r
  | _ => none

structure Signature where
  action : Action
  protocol : Protocol
  metaData : MetaData
  patterns : StdMap String PatternType
  deriving DecidableEq

abbrev SignaturesType := StdMap Protocol (List Signature)

def SignaturesType.of (signatures : SignaturesType) (p : Protocol) : List Signature :=
  (signatures.lookup p).getD []

end Mitvane
