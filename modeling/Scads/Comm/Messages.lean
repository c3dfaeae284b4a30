namespace Scads.Comm

/-! # Services, messages and failures -/

/-- An exception that leaves a modelled method, with its text. -/
inductive Failure where
  | illegalArgument (message : String)
  | runtime (message : String)
  | assertion (message : String)
  | noSuchElement (message : String)
  | indexOutOfBounds (index : Int)
  | unsupportedOperation (message : String)
  | classCast (message : String)
  | classNotFound (name : String)
  | databaseNotFound (name : String)
  | nullPointer
  | timeout
deriving DecidableEq, Repr

@[simp] theorem ok_bind {α β ε : Type} (value : α) (next : α → Except ε β) :
    (Except.ok value >>= next) = next value := rfl

@[simp] theorem error_bind {α β ε : Type} (failure : ε) (next : α → Except ε β) :
    (Except.error failure >>= next) = .error failure := rfl

@[simp] theorem pure_eq_ok {α ε : Type} (value : α) : (pure value : Except ε α) = .ok value := rfl

theorem bind_eq_ok {α β ε : Type} {first : Except ε α} {next : α → Except ε β} {result : β} :
    (first >>= next) = .ok result ↔ ∃ value, first = .ok value ∧ next value = .ok result := by
  cases first with
  | error failure => simp
  | ok value => simp

def require (condition : Bool) (message : String) : Except Failure Unit :=
  if condition then .ok () else .error (.illegalArgument ("requirement failed: " ++ message))

inductive ServiceId where
  | number (num : Int)
  | name (name : String)
deriving DecidableEq, Repr

def ServiceId.toString : ServiceId → String
  | .number num => "ServiceNumber(" ++ ToString.toString num ++ ")"
  | .name text => "ServiceName(" ++ text ++ ")"

structure StorageService where
  host : String
  port : Int
  id : ServiceId
deriving DecidableEq, Repr

structure PartitionService where
  host : String
  port : Int
  id : ServiceId
  partitionId : String
  storageService : StorageService
deriving DecidableEq, Repr

def PartitionService.toString (service : PartitionService) : String :=
  service.id.toString ++ "@" ++ service.host ++ ":" ++ ToString.toString service.port

structure Record (K V : Type) where
  key : K
  value : Option V
deriving DecidableEq, Repr

structure PutRequest (K V : Type) where
  key : K
  value : Option V
deriving DecidableEq, Repr

structure GetRangeRequest (K : Type) where
  minKey : Option K
  maxKey : Option K
  limit : Option Int := none
  offset : Option Int := none
  ascending : Bool := true
deriving DecidableEq, Repr

/-- The messages exchanged with a partition. -/
inductive StorageMessage (K V : Type) where
  | getRequest (key : K)
  | getResponse (value : Option V)
  | putRequest (request : PutRequest K V)
  | putResponse
  | bulkPutRequest (records : List (PutRequest K V))
  | bulkPutResponse
  | getRangeRequest (request : GetRangeRequest K)
  | getRangeResponse (records : List (Record K V))
  | processingException (cause stacktrace : String)
  | requestRejected (reason : String) (request : StorageMessage K V)

/-- How Scala prints an instance of a case class. -/
def showInstance (name : String) (fields : List String) : String := name ++ "(" ++ ",".intercalate fields ++ ")"

def showOption {α : Type} (print : α → String) : Option α → String
  | none => "None"
  | some value => showInstance "Some" [print value]

/-- An array prints as its class and an identity that differs from run to run and is left out. -/
def showBytes {α : Type} (_bytes : α) : String := "[B@"

variable {K V : Type}

def Record.toString (record : Record K V) : String :=
  showInstance "Record" [showBytes record.key, showOption showBytes record.value]

def PutRequest.toString (request : PutRequest K V) : String :=
  showInstance "PutRequest" [showBytes request.key, showOption showBytes request.value]

def GetRangeRequest.toString (request : GetRangeRequest K) : String :=
  showInstance "GetRangeRequest" [showOption showBytes request.minKey, showOption showBytes request.maxKey,
    showOption ToString.toString request.limit, showOption ToString.toString request.offset,
    ToString.toString request.ascending]

def StorageMessage.toString : StorageMessage K V → String
  | .getRequest key => showInstance "GetRequest" [showBytes key]
  | .getResponse value => showInstance "GetResponse" [showOption showBytes value]
  | .putRequest request => request.toString
  | .putResponse => showInstance "PutResponse" []
  | .bulkPutRequest records => showInstance "BulkPutRequest" [showInstance "List" (records.map PutRequest.toString)]
  | .bulkPutResponse => showInstance "BulkPutResponse" []
  | .getRangeRequest request => request.toString
  | .getRangeResponse records => showInstance "GetRangeResponse" [showInstance "List" (records.map Record.toString)]
  | .processingException cause stacktrace => showInstance "ProcessingException" [cause, stacktrace]
  | .requestRejected reason request => showInstance "RequestRejected" [reason, request.toString]

end Scads.Comm
