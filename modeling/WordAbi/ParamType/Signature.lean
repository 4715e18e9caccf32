import WordAbi.Bytes.Sha256
import WordAbi.Fault
/-! The canonical text of a function and its parameter types, and the selector made from it.
Generic parameters stand in it as the types that were put in their place. -/
namespace WordAbi

namespace ParamType

def commaJoined (texts : List (List Char)) : List Char := List.intercalate [','] texts

def genericsChars : List (List Char) → List Char
  | [] => []
  | texts => '<' :: commaJoined texts ++ ['>']

mutual

def signatureChars : ParamType → List Char
  | primitive p => p.keyword.toList
  | string length => "str[".toList ++ Decimal.intChars length ++ [']']
  | array element length =>
    "a[".toList ++ signatureChars element ++ ';' :: Decimal.intChars length ++ [']']
  | vector element =>
    let inner := signatureChars element
    "s<".toList ++ inner ++ ">(s<".toList ++ inner ++ ">(rawptr,u64),u64)".toList
  | tuple elements => '(' :: commaJoined (signatureCharsList elements) ++ [')']
  | struct fields generics _ _ =>
    's' :: genericsChars (signatureCharsList generics)
      ++ '(' :: commaJoined (signatureCharsList fields) ++ [')']
  | enum variants generics _ _ =>
    'e' :: genericsChars (signatureCharsList generics)
      ++ '(' :: commaJoined (signatureCharsList variants) ++ [')']
  | unspecified => []

def signatureCharsList : List ParamType → List (List Char)
  | [] => []
  | t :: ts => signatureChars t :: signatureCharsList ts

end

def signature (t : ParamType) : Except Fault String :=
  if t.isClosed then .ok (String.ofList t.signatureChars) else .error (.unsupported .noSignature)

end ParamType

namespace Signature

def chars (name : String) (types : List ParamType) : List Char :=
  name.toList ++ '(' :: ParamType.commaJoined (ParamType.signatureCharsList types) ++ [')']

def ofFunction (name : String) (types : List ParamType) : Except Fault String :=
  if ParamType.allClosed types then .ok (String.ofList (chars name types))
  else .error (.unsupported .noSignature)

def hash (signature : String) : Bytes :=
  Bytes.zeros 4 ++ (Sha256.digest signature.toUTF8.toList).take 4

def selector (name : String) (types : List ParamType) : Except Fault Bytes :=
  (ofFunction name types).map hash

theorem lengthHash (signature : String) : (hash signature).length = 8 := by
  simp [hash, Sha256.lengthDigest]

end Signature

end WordAbi
