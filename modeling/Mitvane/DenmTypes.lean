import Mitvane.CamTypes

set_option autoImplicit false

namespace Mitvane.Its
open Per

def ia5String : Schema :=
  .octetString (some ⟨constrained 7 7 0 127,⟨true,false,false,-1,-1,0,0⟩,none,none⟩)

def utf8String : Schema := .octetString none

def optionalSized (type : Schema) (constraints : Option PerConstraints) : Schema × FieldInfo :=
  (type,⟨true,true,constraints,none,none⟩)

def isNumber (value : Int) : Value → Bool
  | .native n => n == value
  | _ => false

/-- A member with a number for its default. -/
def defaulted (type : Schema) (value : Int) : Schema × FieldInfo :=
  (type,⟨true,true,none,some (isNumber value),some (.native value)⟩)

def sequenceNumber : Schema :=
  .nativeInteger false (valued (constrained 16 16 0 65535))

def actionID : Schema :=
  closedRecord [mandatory stationID,mandatory sequenceNumber] []

def termination : Schema :=
  .nativeEnumerated ⟨[0,1],0⟩ (valued (constrained 1 1 0 1))

def relevanceDistance : Schema :=
  .nativeEnumerated ⟨[0,1,2,3,4,5,6,7],0⟩ (valued (constrained 3 3 0 7))

def relevanceTrafficDirection : Schema :=
  .nativeEnumerated ⟨[0,1,2,3],0⟩ (valued (constrained 2 2 0 3))

def validityDuration : Schema :=
  .nativeInteger false (valued (constrained 17 (-1) 0 86400))

def transmissionInterval : Schema :=
  .nativeInteger false (valued (constrained 14 14 1 10000))

def managementContainer : Schema :=
  openRecord
    [mandatory actionID,mandatory timestampIts,mandatory timestampIts,optional termination,
     mandatory referencePosition,optional relevanceDistance,optional relevanceTrafficDirection,
     defaulted validityDuration 600,optional transmissionInterval,mandatory stationType]
    [3,5,6,7,8]

def informationQuality : Schema :=
  .nativeInteger false (valued (constrained 3 3 0 7))

def eventPoint : Schema :=
  closedRecord
    [mandatory deltaReferencePosition,optional pathDeltaTime,mandatory informationQuality] [1]

def eventHistory : Schema := .sequenceOf eventPoint none (sized (constrained 5 5 1 23))

def situationContainer : Schema :=
  openRecord
    [mandatory informationQuality,mandatory causeCode,optional causeCode,optional eventHistory]
    [2,3]

def traces : Schema := .sequenceOf pathHistory none (sized (constrained 3 3 1 7))

def roadType : Schema :=
  .nativeEnumerated ⟨[0,1,2,3],0⟩ (valued (constrained 2 2 0 3))

def locationContainer : Schema :=
  openRecord [optional speed,optional heading,mandatory traces,optional roadType] [0,1,3]

def heightLonCarr : Schema :=
  .nativeInteger false (valued (constrained 7 7 1 100))

def posLonCarr : Schema :=
  .nativeInteger false (valued (constrained 7 7 1 127))

def posPillar : Schema :=
  .nativeInteger false (valued (constrained 5 5 1 30))

def positionOfPillars : Schema := .sequenceOf posPillar none (sized (extensibleConstrained 2 2 1 3))

def posCentMass : Schema :=
  .nativeInteger false (valued (constrained 6 6 1 63))

def wheelBaseVehicle : Schema :=
  .nativeInteger false (valued (constrained 7 7 1 127))

def turningRadius : Schema :=
  .nativeInteger false (valued (constrained 8 8 1 255))

def posFrontAx : Schema :=
  .nativeInteger false (valued (constrained 5 5 1 20))

def positionOfOccupants : Schema := .bitString (sized (constrained 0 0 20 20))

def vehicleMass : Schema :=
  .nativeInteger false (valued (constrained 10 10 1 1024))

def requestResponseIndication : Schema :=
  .nativeEnumerated ⟨[0,1],0⟩ (valued (constrained 1 1 0 1))

def impactReductionContainer : Schema :=
  closedRecord
    [mandatory heightLonCarr,mandatory heightLonCarr,mandatory posLonCarr,mandatory posLonCarr,
     mandatory positionOfPillars,mandatory posCentMass,mandatory wheelBaseVehicle,
     mandatory turningRadius,mandatory posFrontAx,mandatory positionOfOccupants,
     mandatory vehicleMass,mandatory requestResponseIndication] []

def temperature : Schema :=
  .nativeInteger false (valued (constrained 7 7 (-60) 67))

def restrictedTypes : Schema := .sequenceOf stationType none (sized (extensibleConstrained 2 2 1 3))

def itineraryPath : Schema := .sequenceOf referencePosition none (sized (constrained 6 6 1 40))

def referenceDenms : Schema := .sequenceOf actionID none (sized (extensibleConstrained 3 3 1 8))

def roadWorksContainerExtended : Schema :=
  closedRecord
    [optional lightBarSirenInUse,optional closedLanes,optional restrictedTypes,
     optional speedLimit,optional causeCode,optional itineraryPath,
     optional deltaReferencePosition,optional trafficRule,optional referenceDenms]
    [0,1,2,3,4,5,6,7,8]

def positioningSolutionType : Schema :=
  .nativeEnumerated ⟨[0,1,2,3,4,5],7⟩ (valued (extensibleConstrained 3 3 0 5))

def stationarySince : Schema :=
  .nativeEnumerated ⟨[0,1,2,3],0⟩ (valued (constrained 2 2 0 3))

/-- `permitted_alphabet_table`: a blank and the digits. -/
def permittedAlphabetTable (value : Nat) : Nat :=
  if value = 32 then 1 else if 48 ≤ value ∧ value ≤ 57 then value-46 else 0

def permittedAlphabetCode2value : List Nat := [32,48,49,50,51,52,53,54,55,56,57]

def phoneNumberV2c (value : Nat) : Option Nat :=
  if 256 ≤ value ∨ permittedAlphabetTable value = 0 then none
  else some (permittedAlphabetTable value-1)

def phoneNumberC2v (code : Nat) : Option Nat := permittedAlphabetCode2value[code]?

def phoneNumber : Schema :=
  .octetString (some
    ⟨constrained 4 4 32 57,constrained 4 4 1 16,some phoneNumberV2c,some phoneNumberC2v⟩)

def dangerousGoodsExtended : Schema :=
  openRecord
    [mandatory dangerousGoodsBasic,constrainedField (valued (constrained 14 14 0 9999)),
     mandatory .boolean,mandatory .boolean,mandatory .boolean,
     optionalSized ia5String (some ⟨constrained 7 7 0 127,constrained 5 5 1 24,none,none⟩),
     optional phoneNumber,
     optionalSized utf8String (some ⟨unconstrained,unconstrained,none,none⟩)] [5,6,7]

def numberOfOccupants : Schema :=
  .nativeInteger false (valued (constrained 7 7 0 127))

def wmInumber : Schema :=
  .octetString (some ⟨constrained 7 7 0 127,constrained 2 2 1 3,none,none⟩)

def vds : Schema :=
  .octetString (some ⟨constrained 7 7 0 127,constrained 0 0 6 6,none,none⟩)

def vehicleIdentification : Schema :=
  openRecord [optional wmInumber,optional vds] [0,1]

def energyStorageType : Schema := .bitString (sized (constrained 0 0 7 7))

def stationaryVehicleContainer : Schema :=
  closedRecord
    [optional stationarySince,optional causeCode,optional dangerousGoodsExtended,
     optional numberOfOccupants,optional vehicleIdentification,optional energyStorageType]
    [0,1,2,3,4,5]

def alacarteContainer : Schema :=
  openRecord
    [optional lanePosition,optional impactReductionContainer,optional temperature,
     optional roadWorksContainerExtended,optional positioningSolutionType,
     optional stationaryVehicleContainer] [0,1,2,3,4,5]

def decentralizedEnvironmentalNotificationMessage : Schema :=
  closedRecord
    [mandatory managementContainer,optional situationContainer,optional locationContainer,
     optional alacarteContainer] [1,2,3]

def denm : Schema :=
  closedRecord [mandatory itsPduHeader,mandatory decentralizedEnvironmentalNotificationMessage] []

theorem denm_sound : denm.sound none = true := by
  decide +kernel

theorem denm_of_nothing (stack : Tmpspace) :
    uperDecode ((denm.descriptor stack).uperDecoder none) [] 0 0 = .ok none := rfl

end Mitvane.Its
