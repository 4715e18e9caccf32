import WordAbi.Version
import WordAbi.Token.Basic
/-! Reading tokens from a buffer by their types, in one pass of a cursor: every type takes exactly
its static size, a vector's elements are read where its pointer leads to, and a failure tells the
type and the offset. -/
namespace WordAbi

structure Decoder where
  buffer : Array UInt8
  base : Int
  maxDepth : Int
  strictBool : Bool
  /-- Zero-width elements that one array or vector may have. -/
  maxElements : Nat

namespace Decoder

def limited (d : Decoder) (maxDepth : Int) (strictBool : Bool) : Decoder :=
  { d with maxDepth := maxDepth, strictBool := strictBool }

def make (settings : Settings) (data : Bytes) (base : Int) : Except Fault Decoder :=
  let buffer := data.toArray
  if settings.maxPayload < buffer.size then
    .error (.invalidData (.payloadLimit buffer.size settings.maxPayload))
  else .ok ⟨buffer, base, settings.maxDepth, settings.strictBool, settings.maxPayload⟩

def between (d : Decoder) (start stop : Int) : Bytes :=
  (d.buffer.extract (Bytes.index d.buffer.size start) (Bytes.index d.buffer.size stop)).toList

def take (d : Decoder) (type : ParamType) (offset count : Int) : Except Fault Bytes :=
  if offset < 0 ∨ (d.buffer.size : Int) < offset + count then
    .error (.invalidData (.shortBuffer type count offset d.buffer.size))
  else .ok (d.between offset (offset + count))

def checkCount (d : Decoder) (type : ParamType) (element : ParamType) (offset count : Int) :
    Except Fault Unit := do
  let size ← element.size
  if size = 0 ∧ (d.maxElements : Int) < count then
    .error (.invalidData (.zeroWidthElements type offset count d.maxElements))
  else .ok ()

def repeatFrom (read : Int → Except Fault (Token × Int)) :
    (count : Nat) → (before : List Token) → (offset : Int) → Except Fault (List Token × Int)
  | 0, before, offset => .ok (before.reverse, offset)
  | count + 1, before, offset =>
    match read offset with
    | .error fault => .error fault
    | .ok (token, next) => repeatFrom read count (token :: before) next

def checkDepth (d : Decoder) (depth : Nat) (type : ParamType) : Except Fault Unit :=
  if d.maxDepth < depth then .error (.unsupported (.typeDepth d.maxDepth type depth)) else .ok ()

def boolOf (d : Decoder) (word : Bytes) (offset : Int) : Except Fault Token :=
  let last := word.getLastD 0
  if d.strictBool ∧ (1 < last ∨ word.dropLast.any (· ≠ 0)) then
    .error (.invalidData (.boolWord word offset))
  else .ok (.bool (last ≠ 0))

def readPrimitive (d : Decoder) (p : Primitive) (offset : Int) : Except Fault (Token × Int) :=
  match p with
  | .unit => do
    let _ ← d.take (.primitive p) offset 8
    .ok (.unit, offset + 8)
  | .bool => do
    let word ← d.take (.primitive p) offset 8
    let token ← d.boolOf word offset
    .ok (token, offset + 8)
  | .b256 => do
    let bytes ← d.take (.primitive p) offset 32
    .ok (.b256 bytes, offset + 32)
  | p => do
    let word ← d.take (.primitive p) offset 8
    .ok (.number p (Bytes.toNat (word.drop (8 - p.width?.getD 8))), offset + 8)

def readString (d : Decoder) (length offset : Int) : Except Fault (Token × Int) := do
  let type : ParamType := .string length
  let padded ← d.take type offset type.staticSize
  let bytes := padded.between 0 length
  if bytes.all (· < 0x80) then .ok (.string bytes.toText length, offset + type.staticSize)
  else .error (.invalidData (.stringBytes type offset))

def readVectorHead (d : Decoder) (element : ParamType) (offset : Int) : Except Fault (Int × Nat) := do
  let type : ParamType := .vector element
  let head ← d.take type offset 24
  let pointer := Word.read head 0
  let length := Word.read head 16
  let position : Int := pointer - d.base
  d.checkCount type element offset length
  let size ← element.size
  if position < 0 ∨ (d.buffer.size : Int) < position + length * size then
    .error (.invalidData (.vectorOutside element offset pointer length))
  else .ok (position, length)

mutual

def readAt (d : Decoder) (depth : Nat) (offset : Int) : ParamType → Except Fault (Token × Int)
  | .primitive p => do
    d.checkDepth depth (.primitive p)
    d.readPrimitive p offset
  | .string length => do
    d.checkDepth depth (.string length)
    d.readString length offset
  | .array element length => do
    let type : ParamType := .array element length
    d.checkDepth depth type
    let size ← type.size
    let _ ← d.take type offset size
    d.checkCount type element offset length
    let (items, next) ←
      repeatFrom (fun start => readAt d (depth + 1) start element) length.toNat [] offset
    .ok (.sequence .array items, next)
  | .vector element => do
    d.checkDepth depth (.vector element)
    let (position, length) ← d.readVectorHead element offset
    let (items, _) ←
      repeatFrom (fun start => readAt d (depth + 1) start element) length [] position
    .ok (.sequence .vector items, offset + 24)
  | .tuple elements => do
    d.checkDepth depth (.tuple elements)
    let (items, next) ← readAllAt d (depth + 1) offset elements
    .ok (.sequence .tuple items, next)
  | .struct fields generics name fieldNames => do
    d.checkDepth depth (.struct fields generics name fieldNames)
    let (items, next) ← readAllAt d (depth + 1) offset fields
    .ok (.sequence .struct items, next)
  | .enum variants generics name variantNames => do
    let type : ParamType := .enum variants generics name variantNames
    d.checkDepth depth type
    let width ← type.size
    let _ ← d.take type offset width
    let discriminant := (d.between offset (offset + 8)).toNat
    let payload ← readVariantAt d (depth + 1) (offset + 8) discriminant variants
    match payload with
    | some (payload, _) =>
      .ok (.enum discriminant payload ⟨variants, variantNames⟩, offset + width)
    | none => .error (.invalidData (.noVariantAt discriminant variants.length (some (type, offset))))
  | .unspecified => do
    d.checkDepth depth .unspecified
    .error (.invalidData .noDecoding)

def readAllAt (d : Decoder) (depth : Nat) (offset : Int) :
    List ParamType → Except Fault (List Token × Int)
  | [] => .ok ([], offset)
  | type :: types => do
    let (token, next) ← readAt d depth offset type
    let (tokens, last) ← readAllAt d depth next types
    .ok (token :: tokens, last)

def readVariantAt (d : Decoder) (depth : Nat) (offset : Int) :
    (index : Nat) → List ParamType → Except Fault (Option (Token × Int))
  | _, [] => .ok none
  | 0, type :: _ => (readAt d depth offset type).map some
  | index + 1, _ :: types => readVariantAt d depth offset index types

end

def read (d : Decoder) (types : List ParamType) (offset : Int) : Except Fault (List Token) :=
  (d.readAllAt 0 offset types).map (·.1)

end Decoder

def decode (settings : Settings) (types : List ParamType) (data : Bytes) (base : Int) :
    Except Fault (List Token) := do
  let decoder ← Decoder.make settings data base
  decoder.read types 0

def decodeWithin (settings : Settings) (maxDepth : Int) (strictBool : Bool) (types : List ParamType)
    (data : Bytes) (base : Int) : Except Fault (List Token) := do
  let decoder ← Decoder.make settings data base
  (decoder.limited maxDepth strictBool).read types 0

def decodeSingle (settings : Settings) (type : ParamType) (data : Bytes) (base : Int) :
    Except Fault Token := do
  let decoder ← Decoder.make settings data base
  let (token, _) ← decoder.readAt 0 0 type
  .ok token

end WordAbi
