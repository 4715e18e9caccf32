import WordAbi.ParamType.Signature
import WordAbi.Token.Encoding
/-! The data of a contract call: the selector of the function, the address of the arguments where
one of them is passed by reference, and the arguments. Main statement: where the arguments start. -/
namespace WordAbi

structure Call where
  selector : Bytes
  arguments : List Chunk
  byReference : Bool

namespace Call

def ofTokens (limit : Int) (selector : Bytes) (tokens : List Token) : Except Fault Call :=
  if selector.length = 8 then do
    let chunks ← Token.encode limit tokens
    .ok ⟨selector, chunks, tokens.any fun token => !token.isByValue⟩
  else .error (.invalidData (.selectorLength selector.length))

def argumentsAddress (call : Call) (base : Int) : Int :=
  base + 8 + (if call.byReference then 8 else 0)

def toBytes (call : Call) (base : Int) : Except Fault Bytes := do
  let address := call.argumentsAddress base
  let pointer ← if call.byReference then Word.checked address else .ok []
  let arguments ← Chunk.resolve call.arguments address
  .ok (call.selector ++ pointer ++ arguments)

def scriptBytes (call : Call) (contract : Bytes) (base : Int) : Except Fault Bytes :=
  if contract.length = 32 then (call.toBytes (base + 32)).map (contract ++ ·)
  else .error (.invalidData (.contractLength contract.length))

theorem argumentsAddressExact (call : Call) (base : Int) {pointer : Bytes}
    (h : (if call.byReference then Word.checked (call.argumentsAddress base) else .ok []) = .ok pointer)
    (hs : call.selector.length = 8) :
    call.argumentsAddress base = base + (call.selector ++ pointer).length := by
  unfold argumentsAddress
  split at h
  · rename_i hr
    rw [Word.checkedOkIff] at h
    simp [hs, ← h.2, hr]; omega
  · rename_i hr
    cases h
    simp [hs, hr]

end Call

end WordAbi
