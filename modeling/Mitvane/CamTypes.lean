import Mitvane.PerPaths

set_option autoImplicit false

namespace Mitvane.Its
open Per BitString

def unconstrained : PerConstraint := ⟨false,false,false,-1,-1,0,0⟩

def constrained (rangeBits effectiveBits lowerBound upperBound : Int) : PerConstraint :=
  ⟨false,true,false,rangeBits,effectiveBits,lowerBound,upperBound⟩

def extensibleConstrained (rangeBits effectiveBits lowerBound upperBound : Int) : PerConstraint :=
  ⟨false,true,true,rangeBits,effectiveBits,lowerBound,upperBound⟩

def valued (value : PerConstraint) : Option PerConstraints := some ⟨value,unconstrained,none,none⟩

def sized (size : PerConstraint) : Option PerConstraints := some ⟨unconstrained,size,none,none⟩

def fields : List (Schema × FieldInfo) → Fields
  | [] => .nil
  | (type,info) :: rest => .cons type info (fields rest)

/-- A member with `ATF_NOFLAGS`. -/
def mandatory (type : Schema) : Schema × FieldInfo := (type,⟨false,false,none,none,none⟩)

/-- A member with `ATF_POINTER` and a count of optional members from it on. -/
def optional (type : Schema) : Schema × FieldInfo := (type,⟨true,true,none,none,none⟩)

/-- A `NativeInteger` with constraints of its own. -/
def constrainedField (constraints : Option PerConstraints) : Schema × FieldInfo :=
  (.nativeInteger false none,⟨false,false,constraints,none,none⟩)

def closedRecord (root : List (Schema × FieldInfo)) (oms : List Nat) : Schema :=
  .sequence (fields root) false .nil oms []

def openRecord (root : List (Schema × FieldInfo)) (oms : List Nat) : Schema :=
  .sequence (fields root) true .nil oms []

def alternatives (elements : List (Schema × FieldInfo)) (extStart : Nat)
    (own : Option PerConstraints) : Schema :=
  .choice (fields elements) ⟨none,none,some extStart⟩ own

def stationID : Schema :=
  .nativeInteger true (valued (constrained 32 (-1) 0 4294967295))

def itsPduHeader : Schema :=
  closedRecord
    [constrainedField (valued (constrained 8 8 0 255)),
     constrainedField (valued (constrained 8 8 0 255)),mandatory stationID] []

def generationDeltaTime : Schema :=
  .nativeInteger false (valued (constrained 16 16 0 65535))

def stationType : Schema :=
  .nativeInteger false (valued (constrained 8 8 0 255))

def latitude : Schema :=
  .nativeInteger false (valued (constrained 31 (-1) (-900000000) 900000001))

def longitude : Schema :=
  .nativeInteger false (valued (constrained 32 (-1) (-1800000000) 1800000001))

def semiAxisLength : Schema :=
  .nativeInteger false (valued (constrained 12 12 0 4095))

def headingValue : Schema :=
  .nativeInteger false (valued (constrained 12 12 0 3601))

def posConfidenceEllipse : Schema :=
  closedRecord [mandatory semiAxisLength,mandatory semiAxisLength,mandatory headingValue] []

def altitudeValue : Schema :=
  .nativeInteger false (valued (constrained 20 (-1) (-100000) 800001))

def altitudeConfidence : Schema :=
  .nativeEnumerated ⟨[0,1,2,3,4,5,6,7,8,9,10,11,12,13,14,15],0⟩ (valued (constrained 4 4 0 15))

def altitude : Schema :=
  closedRecord [mandatory altitudeValue,mandatory altitudeConfidence] []

def referencePosition : Schema :=
  closedRecord
    [mandatory latitude,mandatory longitude,mandatory posConfidenceEllipse,mandatory altitude] []

def basicContainer : Schema :=
  openRecord [mandatory stationType,mandatory referencePosition] []

def headingConfidence : Schema :=
  .nativeInteger false (valued (constrained 7 7 1 127))

def heading : Schema :=
  closedRecord [mandatory headingValue,mandatory headingConfidence] []

def speedValue : Schema :=
  .nativeInteger false (valued (constrained 14 14 0 16383))

def speedConfidence : Schema :=
  .nativeInteger false (valued (constrained 7 7 1 127))

def speed : Schema :=
  closedRecord [mandatory speedValue,mandatory speedConfidence] []

def driveDirection : Schema :=
  .nativeEnumerated ⟨[0,1,2],0⟩ (valued (constrained 2 2 0 2))

def vehicleLengthValue : Schema :=
  .nativeInteger false (valued (constrained 10 10 1 1023))

def vehicleLengthConfidenceIndication : Schema :=
  .nativeEnumerated ⟨[0,1,2,3,4],0⟩ (valued (constrained 3 3 0 4))

def vehicleLength : Schema :=
  closedRecord [mandatory vehicleLengthValue,mandatory vehicleLengthConfidenceIndication] []

def vehicleWidth : Schema :=
  .nativeInteger false (valued (constrained 6 6 1 62))

def longitudinalAccelerationValue : Schema :=
  .nativeInteger false (valued (constrained 9 9 (-160) 161))

def accelerationConfidence : Schema :=
  .nativeInteger false (valued (constrained 7 7 0 102))

def longitudinalAcceleration : Schema :=
  closedRecord [mandatory longitudinalAccelerationValue,mandatory accelerationConfidence] []

def curvatureValue : Schema :=
  .nativeInteger false (valued (constrained 11 11 (-1023) 1023))

def curvatureConfidence : Schema :=
  .nativeEnumerated ⟨[0,1,2,3,4,5,6,7],0⟩ (valued (constrained 3 3 0 7))

def curvature : Schema :=
  closedRecord [mandatory curvatureValue,mandatory curvatureConfidence] []

def curvatureCalculationMode : Schema :=
  .nativeEnumerated ⟨[0,1,2],4⟩ (valued (extensibleConstrained 2 2 0 2))

def yawRateValue : Schema :=
  .nativeInteger false (valued (constrained 16 16 (-32766) 32767))

def yawRateConfidence : Schema :=
  .nativeEnumerated ⟨[0,1,2,3,4,5,6,7,8],0⟩ (valued (constrained 4 4 0 8))

def yawRate : Schema :=
  closedRecord [mandatory yawRateValue,mandatory yawRateConfidence] []

def accelerationControl : Schema := .bitString (sized (constrained 0 0 7 7))

def lanePosition : Schema :=
  .nativeInteger false (valued (constrained 4 4 (-1) 14))

def steeringWheelAngleValue : Schema :=
  .nativeInteger false (valued (constrained 10 10 (-511) 512))

def steeringWheelAngleConfidence : Schema :=
  .nativeInteger false (valued (constrained 7 7 1 127))

def steeringWheelAngle : Schema :=
  closedRecord [mandatory steeringWheelAngleValue,mandatory steeringWheelAngleConfidence] []

def lateralAccelerationValue : Schema :=
  .nativeInteger false (valued (constrained 9 9 (-160) 161))

def lateralAcceleration : Schema :=
  closedRecord [mandatory lateralAccelerationValue,mandatory accelerationConfidence] []

def verticalAccelerationValue : Schema :=
  .nativeInteger false (valued (constrained 9 9 (-160) 161))

def verticalAcceleration : Schema :=
  closedRecord [mandatory verticalAccelerationValue,mandatory accelerationConfidence] []

def performanceClass : Schema :=
  .nativeInteger false (valued (constrained 3 3 0 7))

def cenDsrcTollingZoneID : Schema :=
  .nativeInteger false (valued (constrained 27 (-1) 0 134217727))

def cenDsrcTollingZone : Schema :=
  openRecord [mandatory latitude,mandatory longitude,optional cenDsrcTollingZoneID] [2]

def basicVehicleContainerHighFrequency : Schema :=
  closedRecord
    [mandatory heading,mandatory speed,mandatory driveDirection,mandatory vehicleLength,
     mandatory vehicleWidth,mandatory longitudinalAcceleration,mandatory curvature,
     mandatory curvatureCalculationMode,mandatory yawRate,optional accelerationControl,
     optional lanePosition,optional steeringWheelAngle,optional lateralAcceleration,
     optional verticalAcceleration,optional performanceClass,optional cenDsrcTollingZone]
    [9,10,11,12,13,14,15]

def protectedZoneType : Schema :=
  .nativeEnumerated ⟨[0,1],2⟩ (valued (extensibleConstrained 0 0 0 0))

def timestampIts : Schema :=
  .integer false (valued (constrained 42 (-1) 0 4398046511103))

def protectedZoneRadius : Schema :=
  .nativeInteger false (valued (extensibleConstrained 8 8 1 255))

def protectedZoneID : Schema :=
  .nativeInteger false (valued (constrained 27 (-1) 0 134217727))

def protectedCommunicationZone : Schema :=
  openRecord
    [mandatory protectedZoneType,optional timestampIts,mandatory latitude,mandatory longitude,
     optional protectedZoneRadius,optional protectedZoneID] [1,4,5]

def protectedCommunicationZonesRSU : Schema :=
  .sequenceOf protectedCommunicationZone none (sized (constrained 4 4 1 16))

def rsuContainerHighFrequency : Schema :=
  openRecord [optional protectedCommunicationZonesRSU] [0]

def highFrequencyContainer : Schema :=
  alternatives
    [mandatory basicVehicleContainerHighFrequency,mandatory rsuContainerHighFrequency]
    2 (valued (extensibleConstrained 1 1 0 1))

def vehicleRole : Schema :=
  .nativeEnumerated ⟨[0,1,2,3,4,5,6,7,8,9,10,11,12,13,14,15],0⟩ (valued (constrained 4 4 0 15))

def exteriorLights : Schema := .bitString (sized (constrained 0 0 8 8))

def deltaLatitude : Schema :=
  .nativeInteger false (valued (constrained 18 (-1) (-131071) 131072))

def deltaLongitude : Schema :=
  .nativeInteger false (valued (constrained 18 (-1) (-131071) 131072))

def deltaAltitude : Schema :=
  .nativeInteger false (valued (constrained 15 15 (-12700) 12800))

def deltaReferencePosition : Schema :=
  closedRecord [mandatory deltaLatitude,mandatory deltaLongitude,mandatory deltaAltitude] []

def pathDeltaTime : Schema :=
  .nativeInteger false (valued (extensibleConstrained 16 16 1 65535))

def pathPoint : Schema :=
  closedRecord [mandatory deltaReferencePosition,optional pathDeltaTime] [1]

def pathHistory : Schema := .sequenceOf pathPoint none (sized (constrained 6 6 0 40))

def basicVehicleContainerLowFrequency : Schema :=
  closedRecord [mandatory vehicleRole,mandatory exteriorLights,mandatory pathHistory] []

def lowFrequencyContainer : Schema :=
  alternatives
    [mandatory basicVehicleContainerLowFrequency] 1 (valued (extensibleConstrained 0 0 0 0))

def embarkationStatus : Schema := .boolean

def ptActivationType : Schema :=
  .nativeInteger false (valued (constrained 8 8 0 255))

def ptActivationData : Schema := .octetString (sized (constrained 5 5 1 20))

def ptActivation : Schema :=
  closedRecord [mandatory ptActivationType,mandatory ptActivationData] []

def publicTransportContainer : Schema :=
  closedRecord [mandatory embarkationStatus,optional ptActivation] [1]

def specialTransportType : Schema := .bitString (sized (constrained 0 0 4 4))

def lightBarSirenInUse : Schema := .bitString (sized (constrained 0 0 2 2))

def specialTransportContainer : Schema :=
  closedRecord [mandatory specialTransportType,mandatory lightBarSirenInUse] []

def dangerousGoodsBasic : Schema :=
  .nativeEnumerated ⟨[0,1,2,3,4,5,6,7,8,9,10,11,12,13,14,15,16,17,18,19],0⟩
    (valued (constrained 5 5 0 19))

def dangerousGoodsContainer : Schema :=
  closedRecord [mandatory dangerousGoodsBasic] []

def roadworksSubCauseCode : Schema :=
  .nativeInteger false (valued (constrained 8 8 0 255))

def hardShoulderStatus : Schema :=
  .nativeEnumerated ⟨[0,1,2],0⟩ (valued (constrained 2 2 0 2))

def drivingLaneStatus : Schema := .bitString (sized (constrained 4 4 1 13))

def closedLanes : Schema :=
  openRecord
    [optional hardShoulderStatus,optional hardShoulderStatus,optional drivingLaneStatus] [0,1,2]

def roadWorksContainerBasic : Schema :=
  closedRecord
    [optional roadworksSubCauseCode,mandatory lightBarSirenInUse,optional closedLanes] [0,2]

def rescueContainer : Schema :=
  closedRecord [mandatory lightBarSirenInUse] []

def causeCodeType : Schema :=
  .nativeInteger false (valued (constrained 8 8 0 255))

def subCauseCodeType : Schema :=
  .nativeInteger false (valued (constrained 8 8 0 255))

def causeCode : Schema :=
  openRecord [mandatory causeCodeType,mandatory subCauseCodeType] []

def emergencyPriority : Schema := .bitString (sized (constrained 0 0 2 2))

def emergencyContainer : Schema :=
  closedRecord [mandatory lightBarSirenInUse,optional causeCode,optional emergencyPriority] [1,2]

def trafficRule : Schema :=
  .nativeEnumerated ⟨[0,1,2,3],5⟩ (valued (extensibleConstrained 2 2 0 3))

def speedLimit : Schema :=
  .nativeInteger false (valued (constrained 8 8 1 255))

def safetyCarContainer : Schema :=
  closedRecord
    [mandatory lightBarSirenInUse,optional causeCode,optional trafficRule,optional speedLimit]
    [1,2,3]

def specialVehicleContainer : Schema :=
  alternatives
    [mandatory publicTransportContainer,mandatory specialTransportContainer,
     mandatory dangerousGoodsContainer,mandatory roadWorksContainerBasic,
     mandatory rescueContainer,mandatory emergencyContainer,mandatory safetyCarContainer]
    7 (valued (extensibleConstrained 3 3 0 6))

def camParameters : Schema :=
  openRecord
    [mandatory basicContainer,mandatory highFrequencyContainer,optional lowFrequencyContainer,
     optional specialVehicleContainer] [2,3]

def coopAwareness : Schema :=
  closedRecord [mandatory generationDeltaTime,mandatory camParameters] []

def cam : Schema :=
  closedRecord [mandatory itsPduHeader,mandatory coopAwareness] []

theorem cam_sound : cam.sound none = true := by
  decide +kernel

structure Located (v : Value) : Prop where
  station : NumberAt v [0,2] 0 4294967295
  latitude : NumberAt v [1,1,0,1,0] (-900000000) 900000001
  longitude : NumberAt v [1,1,0,1,1] (-1800000000) 1800000001

theorem located_of_wellFormed {v : Value} (h : cam.WellFormed none v) : Located v where
  station := numberAt_of_range h rfl rfl
  latitude := numberAt_of_range h rfl rfl
  longitude := numberAt_of_range h rfl rfl

/-- Whatever the bytes are, decoding a message ends without a fault, and one that is accepted
says who sent it, and where from. -/
theorem received_cam_located (stack : Tmpspace) (buffer : List UInt8) :
    ∃ rval, decodePer ((cam.descriptor stack).uperDecoder none) buffer = .ok rval ∧
      ∀ v consumed, rval = some (v,consumed) → Located v := by
  obtain ⟨rval,hrun,hall⟩ := decodePer_ensures (cam.yields stack none cam_sound) buffer
  exact ⟨rval,hrun,fun v consumed hrval => located_of_wellFormed (hall (v,consumed) hrval)⟩

theorem cam_of_nothing (stack : Tmpspace) :
    uperDecode ((cam.descriptor stack).uperDecoder none) [] 0 0 = .ok none := rfl

/-- A message whose values keep to their ranges is encoded, and it arrives, whatever follows
it. -/
theorem cam_roundTrips (stack : Tmpspace) {v : Value} (h : cam.inRange none v = true) :
    ∃ bytes consumed, encodePer stack ((cam.descriptor stack).uperEncoder none v) =
        .ok (some bytes) ∧
      (∀ more, decodePer ((cam.descriptor stack).uperDecoder none) (bytes ++ more) =
        .ok (some (cam.arrives none v,consumed))) ∧
      (cam.exact none v = true → cam.arrives none v = v) := by
  obtain ⟨bytes,consumed,hbytes,hdecoded⟩ :=
    Schema.message_roundTrips stack cam_sound (cam_of_nothing stack) h
  exact ⟨bytes,consumed,hbytes,hdecoded,cam.arrives_exact none v h⟩

def record (members : List Value) : Value := .struct (members.map some)

/-- Road works with two points of their path, and the middle one of three lanes open. -/
def sampleCam : Value :=
  record [record [.native 2,.native 2,.native 4711],
    record [.native 12345,.struct
      [record [.native 5,record [.native 488800000,.native 112200000,
          record [.native 100,.native 100,.native 900],record [.native 30000,.native 3]]],
        some (.choice 1 (.struct ([record [.native 900,.native 10],record [.native 1300,.native 5],
          .native 0,record [.native 45,.native 1],.native 18,record [.native (-3),.native 10],
          record [.native 12,.native 3],.native 0,record [.native 40,.native 2],
          .bits [0x40] 1].map some ++ List.replicate 6 none))),
        some (.choice 1 (record [.native 0,.bits [0xA0] 0,.list
          [record [record [.native 10,.native (-10),.native 0],.native 100],
            .struct [record [.native 20,.native (-10),.native 0],none]]])),
        some (.choice 4 (.struct
          [none,some (.bits [0x80] 6),some (.struct [none,none,some (.bits [0x40] 5)])]))]]]

def sampleCamBytes : List UInt8 :=
  [2,2,0,0,18,103,48,57,96,90,88,237,0,14,63,59,104,0,200,12,135,8,63,122,6,64,56,65,34,138,4,2,194,
    138,116,84,11,98,0,152,144,2,128,44,0,18,255,250,177,156,0,49,160,1,55,255,213,140,225,176,138]

theorem sampleCamBytes_accepted : ∃ v consumed,
    decodePer ((cam.descriptor zeroStack).uperDecoder none) sampleCamBytes =
      .ok (some (v,consumed)) := ⟨_,_,rfl⟩

theorem cam_roundTrips_sample :
    ∃ bytes consumed, encodePer zeroStack ((cam.descriptor zeroStack).uperEncoder none sampleCam) =
        .ok (some bytes) ∧
      (∀ more, decodePer ((cam.descriptor zeroStack).uperDecoder none) (bytes ++ more) =
        .ok (some (cam.arrives none sampleCam,consumed))) ∧
      (cam.exact none sampleCam = true → cam.arrives none sampleCam = sampleCam) :=
  cam_roundTrips zeroStack (by decide +kernel)

end Mitvane.Its
