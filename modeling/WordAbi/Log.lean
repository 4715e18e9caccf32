import WordAbi.Receipt
/-! The logs of a call by the types that their ids are declared with, and its returned value. -/
namespace WordAbi

abbrev LogTypes := Table Int ParamType

namespace LogTypes

def typeOf? (types : LogTypes) (receipt : Receipt) : Option ParamType := do
  let id ← receipt.logId?
  Table.get? types id

def decodePayload (settings : Settings) (type : ParamType) (receipt : Receipt) : Except Fault Token := do
  let data ← receipt.payload
  decodeSingle settings type data 0

def logsWithType (settings : Settings) (types : LogTypes) (receipts : List Receipt)
    (type : ParamType) : Except Fault (List Token) :=
  (receipts.filter fun receipt => (typeOf? types receipt).any (·.same type)).mapM
    (decodePayload settings type)

def renderLog (settings : Settings) (type : ParamType) (receipt : Receipt) : Except Fault String := do
  let token ← decodePayload settings type receipt
  let value ← token.toDatum (some type)
  .ok value.repr

def fetchLogs (settings : Settings) (types : LogTypes) (receipts : List Receipt) :
    Except Fault (List String) :=
  (receipts.filterMap fun receipt => (typeOf? types receipt).map fun type => (type, receipt)).mapM
    fun log => renderLog settings log.1 log.2

end LogTypes

def ParamType.zeroBytes (limit : Nat) (type : ParamType) : Except Fault Bytes := do
  let size ← type.size
  if size < 0 then .error (.misuse .badValue)
  else if (limit : Int) < size then .error (.invalidData (.payloadLimit size.toNat limit))
  else .ok (Bytes.zeros size.toNat)

def decodeReturn (settings : Settings) (receipts : List Receipt) (type : ParamType) :
    Except Fault Token := do
  let data ← match receipts.find? (·.isReturn) with
    | some receipt => receipt.payload
    | none => type.zeroBytes settings.maxPayload
  decodeSingle settings type data 0

end WordAbi
