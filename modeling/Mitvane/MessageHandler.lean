import Mitvane.Signature

set_option autoImplicit false

namespace Mitvane

inductive HandleReport where
  | allow | drop
  deriving DecidableEq, Repr

def HandleReport.code : HandleReport → UInt32
  | .allow => 0
  | .drop => 1

def actionToString (action : Action) : String :=
  if action = .alert then "alert"
  else if action = .drop then "drop"
  else "unknown action"

def protocolToString (protocol : Protocol) : String :=
  if protocol = .geoNetworking then "GeoNetworking"
  else if protocol = .btp then "BTP"
  else if protocol = .facility then "Facility"
  else if protocol = .ca then "CA"
  else if protocol = .den then "DEN"
  else if protocol = .spat then "SPAT"
  else if protocol = .map then "MAP"
  else "unknown protocol"

def sidRevToString (m : MetaData) : String :=
  "[" ++ toString m.sid ++ ":" ++ toString m.rev ++ "] "

def formatLog (sig : Signature) : String :=
  sidRevToString sig.metaData ++ sig.metaData.msg ++ " " ++ actionToString sig.action ++ " " ++
    "\x7b" ++ protocolToString sig.protocol ++ "\x7d"

def logRecord (sig : Signature) : String :=
  match sig.action with
  | .alert => formatLog sig
  | .drop => formatLog sig
  | .notSupportedAction => "Unknown action. No log output."

/-- The verdict is only ever raised to drop, and every signature is logged. -/
def handleFrom : HandleReport → List Signature → HandleReport × List String
  | rep, [] => (rep,[])
  | rep, sig :: sigs =>
    let next := if sig.action = .alert then rep else .drop
    ((handleFrom next sigs).1,logRecord sig :: (handleFrom next sigs).2)

def handle (sigs : List Signature) : HandleReport × List String := handleFrom .allow sigs

theorem handleFrom_fst (rep : HandleReport) (sigs : List Signature) :
    (handleFrom rep sigs).1 =
      if sigs.all (fun sig => sig.action = .alert) then rep else .drop := by
  induction sigs generalizing rep with
  | nil => rfl
  | cons sig sigs ih =>
    by_cases h : sig.action = .alert
    · simp [handleFrom,ih,h]
    · simp [handleFrom,ih,h]

theorem handleFrom_snd (rep : HandleReport) (sigs : List Signature) :
    (handleFrom rep sigs).2 = sigs.map logRecord := by
  induction sigs generalizing rep with
  | nil => rfl
  | cons sig sigs ih => simp [handleFrom,ih]

theorem handle_eq (sigs : List Signature) :
    handle sigs = (if sigs.all (fun sig => sig.action = .alert) then .allow else .drop,
      sigs.map logRecord) := by
  apply Prod.ext
  · exact handleFrom_fst .allow sigs
  · exact handleFrom_snd .allow sigs

end Mitvane
