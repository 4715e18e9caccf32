import WordAbi.Chunk
import WordAbi.Version
import WordAbi.Token.Basic
/-! The layout of tokens. Integers and truth values are right-aligned in one word, byte strings are
left-aligned and filled up with zeros, sequences stand inline, a vector is a pointer to its elements
with capacity and length, and every value of an enum is as wide as the widest variant. -/
namespace WordAbi.Token

def encodeScalar (kind : Primitive) (payload : Datum) : Except Fault (List Chunk) :=
  match kind with
  | .unit => .ok [.inline (Word.bytes 0)]
  | .bool =>
    match payload with
    | .bool b => .ok [.inline (Word.bytes (if b then 1 else 0))]
    | v => .error (.invalidData (.boolToken v.repr))
  | .b256 =>
    match payload with
    | .bytes bs =>
      if bs.length = 32 then .ok [.inline bs] else .error (.invalidData .b256Token)
    | _ => .error (.invalidData .b256Token)
  | kind =>
    let width := kind.width?.getD 8
    match payload with
    | .int n =>
      if 0 ≤ n ∧ n < Bytes.capacity width then .ok [.inline (Word.bytes n.toNat)]
      else .error (.invalidData (.outOfRange kind.kindName width n))
    | v => .error (.invalidData (.intToken kind.kindName v.repr))

def vectorChunks (elements : List Chunk) (count : Nat) : List Chunk :=
  [.dynamic elements, .inline (Word.bytes count), .inline (Word.bytes count)]

def enumChunks (discriminant : Int) (variants : EnumVariants) (type : ParamType)
    (payload : List Chunk) : Except Fault (List Chunk) := do
  let width := Chunk.headSizes payload
  let size ← type.size
  if (width : Int) ≠ size then .error (.invalidData (.variantWidth discriminant type width))
  else do
    let widest ← variants.payloadSize
    let fill := (widest - width).toNat
    let word ← Word.checked discriminant
    .ok (.inline word :: payload ++ (if fill = 0 then [] else [.inline (Bytes.zeros fill)]))

def checkDepth (limit : Int) (depth : Nat) : Except Fault Unit :=
  if limit < depth then .error (.unsupported (.tokenDepth limit depth)) else .ok ()

def encodeForeign (limit : Int) (depth : Nat) (value : Datum) : Except Fault (List Chunk) := do
  checkDepth limit depth
  .error (.invalidData (.notToken value.kindName))

def encodeForeigns (limit : Int) (depth : Nat) : List Datum → Except Fault (List Chunk)
  | [] => .ok []
  | value :: _ => encodeForeign limit depth value

mutual

def encodeAt (limit : Int) (depth : Nat) : Token → Except Fault (List Chunk)
  | scalar kind payload => do
    checkDepth limit depth
    encodeScalar kind payload
  | string text expected => do
    checkDepth limit depth
    let text ← checkedText text expected
    .ok [.inline (Word.pad (Bytes.ofAscii text))]
  | sequence .vector items => do
    checkDepth limit depth
    let elements ← encodeAllAt limit (depth + 1) items
    .ok (vectorChunks elements items.length)
  | sequence _ items => do
    checkDepth limit depth
    encodeAllAt limit (depth + 1) items
  | enum discriminant payload variants => do
    checkDepth limit depth
    let type ← variants.typeOf discriminant
    let chunks ← encodeAt limit (depth + 1) payload
    enumChunks discriminant variants type chunks
  | misfit (.sequence kind) payload => do
    checkDepth limit depth
    match payload.items? with
    | none => .error (.misuse .wrongKind)
    | some items => do
      let elements ← encodeForeigns limit (depth + 1) items
      .ok (if kind = .vector then vectorChunks elements items.length else elements)
  | misfit .string _ => do
    checkDepth limit depth
    .error (.misuse .missingMember)
  | misfit .enum payload => do
    checkDepth limit depth
    match payload.items? with
    | none => .error (.misuse .wrongKind)
    | some items =>
      .error (.misuse (if items.length = 3 then .missingMember else .badValue))
  | foreign value => encodeForeign limit depth value

def encodeAllAt (limit : Int) (depth : Nat) : List Token → Except Fault (List Chunk)
  | [] => .ok []
  | token :: tokens => do
    let chunks ← encodeAt limit depth token
    let rest ← encodeAllAt limit depth tokens
    .ok (chunks ++ rest)

end

def encode (limit : Int) (tokens : List Token) : Except Fault (List Chunk) :=
  encodeAllAt limit 0 tokens

end WordAbi.Token
