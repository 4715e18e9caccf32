import WordAbi.Number.Literal
import WordAbi.Word.Basic
/-! Types of the values that the machine passes: their layout in words, their names, and the shape
that is left when names are forgotten. Main statements: the list versions of the measures are maps,
and two types are the same exactly when their shapes are equal. -/
namespace WordAbi

inductive Primitive where
  | unit
  | bool
  | u8
  | u16
  | u32
  | u64
  | byte
  | b256
  deriving DecidableEq, Repr

namespace Primitive

def all : List Primitive := [unit, bool, u8, u16, u32, u64, byte, b256]

def keyword : Primitive → String
  | unit => "()"
  | bool => "bool"
  | u8 => "u8"
  | u16 => "u16"
  | u32 => "u32"
  | u64 => "u64"
  | byte => "byte"
  | b256 => "b256"

def ofKeyword? (word : String) : Option Primitive := all.find? fun p => p.keyword == word

def size : Primitive → Int
  | b256 => 32
  | _ => 8

def width? : Primitive → Option Nat
  | u8 => some 1
  | u16 => some 2
  | u32 => some 4
  | u64 => some 8
  | byte => some 1
  | _ => none

theorem ofKeywordKeyword (p : Primitive) : ofKeyword? p.keyword = some p := by
  cases p <;> decide

end Primitive

/-- A type of values. Lengths come from outside and may be negative; `struct` and `enum` have the
names that they and their members were declared with, as many as members or none. `unspecified`
is the type that no operation handles. -/
inductive ParamType where
  | primitive (p : Primitive)
  | string (length : Int)
  | array (element : ParamType) (length : Int)
  | vector (element : ParamType)
  | tuple (elements : List ParamType)
  | struct (fields generics : List ParamType) (name : String) (fieldNames : List String)
  | enum (variants generics : List ParamType) (name : String) (variantNames : List String)
  | unspecified
  deriving Inhabited

namespace ParamType

def vectorHead : Int := 24

def widest (sizes : List Int) : Int := sizes.max?.getD 0

def total : (sizes : List Int) → Int
  | [] => 0
  | size :: sizes => size + total sizes

mutual

def staticSize : ParamType → Int
  | primitive p => p.size
  | string length => Word.paddedLength length
  | array element length => length * staticSize element
  | vector _ => vectorHead
  | tuple elements => total (staticSizes elements)
  | struct fields _ _ _ => total (staticSizes fields)
  | enum variants _ _ _ => 8 + widest (staticSizes variants)
  | unspecified => 0

def staticSizes : List ParamType → List Int
  | [] => []
  | t :: ts => staticSize t :: staticSizes ts

end

mutual

def usesVectors : ParamType → Bool
  | primitive _ => false
  | string _ => false
  | array element _ => usesVectors element
  | vector _ => true
  | tuple elements => anyUsesVectors elements
  | struct fields _ _ _ => anyUsesVectors fields
  | enum variants _ _ _ => anyUsesVectors variants
  | unspecified => false

def anyUsesVectors : List ParamType → Bool
  | [] => false
  | t :: ts => usesVectors t || anyUsesVectors ts

end

mutual

def nameChars : ParamType → List Char
  | primitive p => p.keyword.toList
  | string length => "str[".toList ++ Decimal.intChars length ++ [']']
  | array element length => '[' :: nameChars element ++ "; ".toList ++ Decimal.intChars length ++ [']']
  | vector element => "Vec<".toList ++ nameChars element ++ ['>']
  | tuple elements => '(' :: List.intercalate ", ".toList (nameCharsList elements) ++ [')']
  | struct _ _ name _ => if name = "" then "struct".toList else "struct ".toList ++ name.toList
  | enum _ _ name _ => if name = "" then "enum".toList else "enum ".toList ++ name.toList
  | unspecified => []

def nameCharsList : List ParamType → List (List Char)
  | [] => []
  | t :: ts => nameChars t :: nameCharsList ts

end

def typeName (t : ParamType) : String := String.ofList t.nameChars

mutual

def hasSize : ParamType → Bool
  | array element _ => hasSize element
  | tuple elements => allHaveSize elements
  | struct fields _ _ _ => allHaveSize fields
  | enum variants _ _ _ => allHaveSize variants
  | unspecified => false
  | primitive _ => true
  | string _ => true
  | vector _ => true

def allHaveSize : List ParamType → Bool
  | [] => true
  | t :: ts => hasSize t && allHaveSize ts

end

mutual

def hasName : ParamType → Bool
  | array element _ => hasName element
  | vector element => hasName element
  | tuple elements => allHaveName elements
  | unspecified => false
  | primitive _ => true
  | string _ => true
  | struct _ _ _ _ => true
  | enum _ _ _ _ => true

def allHaveName : List ParamType → Bool
  | [] => true
  | t :: ts => hasName t && allHaveName ts

end

mutual

def isClosed : ParamType → Bool
  | primitive _ => true
  | string _ => true
  | array element _ => isClosed element
  | vector element => isClosed element
  | tuple elements => allClosed elements
  | struct fields generics _ _ => allClosed generics && allClosed fields
  | enum variants generics _ _ => allClosed generics && allClosed variants
  | unspecified => false

def allClosed : List ParamType → Bool
  | [] => true
  | t :: ts => isClosed t && allClosed ts

end

mutual

def shape : ParamType → ParamType
  | primitive p => primitive p
  | string length => string length
  | array element length => array (shape element) length
  | vector element => vector (shape element)
  | tuple elements => tuple (shapes elements)
  | struct fields generics _ _ => struct (shapes fields) (shapes generics) "" []
  | enum variants generics _ _ => enum (shapes variants) (shapes generics) "" []
  | unspecified => unspecified

def shapes : List ParamType → List ParamType
  | [] => []
  | t :: ts => shape t :: shapes ts

end

mutual

/-- Equality of types, which names do not take part in. -/
def same : ParamType → ParamType → Bool
  | primitive p, primitive q => p == q
  | string m, string n => m == n
  | array s m, array t n => m == n && same s t
  | vector s, vector t => same s t
  | tuple ss, tuple ts => sameList ss ts
  | struct ss gs _ _, struct ts hs _ _ => sameList ss ts && sameList gs hs
  | enum ss gs _ _, enum ts hs _ _ => sameList ss ts && sameList gs hs
  | unspecified, unspecified => true
  | _, _ => false

def sameList : List ParamType → List ParamType → Bool
  | [], [] => true
  | s :: ss, t :: ts => same s t && sameList ss ts
  | _, _ => false

end

theorem staticSizesEqMap (ts : List ParamType) : staticSizes ts = ts.map staticSize := by
  induction ts with
  | nil => rfl
  | cons t ts ih => simp [staticSizes, ih]

theorem anyUsesVectorsEqAny (ts : List ParamType) : anyUsesVectors ts = ts.any usesVectors := by
  induction ts with
  | nil => rfl
  | cons t ts ih => simp [anyUsesVectors, ih]

theorem allHaveSizeEqAll (ts : List ParamType) : allHaveSize ts = ts.all hasSize := by
  induction ts with
  | nil => rfl
  | cons t ts ih => simp [allHaveSize, ih]

theorem allClosedEqAll (ts : List ParamType) : allClosed ts = ts.all isClosed := by
  induction ts with
  | nil => rfl
  | cons t ts ih => simp [allClosed, ih]

theorem shapesEqMap (ts : List ParamType) : shapes ts = ts.map shape := by
  induction ts with
  | nil => rfl
  | cons t ts ih => simp [shapes, ih]

mutual

theorem sameIff : (s t : ParamType) → (same s t = true ↔ shape s = shape t)
  | primitive p, t => by cases t <;> simp [same, shape]
  | string m, t => by cases t <;> simp [same, shape]
  | array s m, t => by
    cases t with
    | array t n => simp [same, shape, sameIff s t, and_comm]
    | _ => simp [same, shape]
  | vector s, t => by
    cases t with
    | vector t => simp [same, shape, sameIff s t]
    | _ => simp [same, shape]
  | tuple ss, t => by
    cases t with
    | tuple ts => simp [same, shape, sameListIff ss ts]
    | _ => simp [same, shape]
  | struct ss gs _ _, t => by
    cases t with
    | struct ts hs _ _ => simp [same, shape, sameListIff ss ts, sameListIff gs hs]
    | _ => simp [same, shape]
  | enum ss gs _ _, t => by
    cases t with
    | enum ts hs _ _ => simp [same, shape, sameListIff ss ts, sameListIff gs hs]
    | _ => simp [same, shape]
  | unspecified, t => by cases t <;> simp [same, shape]

theorem sameListIff : (ss ts : List ParamType) → (sameList ss ts = true ↔ shapes ss = shapes ts)
  | [], ts => by cases ts <;> simp [sameList, shapes]
  | s :: ss, ts => by
    cases ts with
    | nil => simp [sameList, shapes]
    | cons t ts => simp [sameList, shapes, sameIff s t, sameListIff ss ts]

end

@[simp] theorem sameRefl (t : ParamType) : same t t = true := (sameIff t t).2 rfl

mutual

theorem hasSizeOfIsClosed : (t : ParamType) → t.isClosed = true → t.hasSize = true
  | primitive _, _ => rfl
  | string _, _ => rfl
  | array e _, h => by simp only [isClosed] at h; simpa [hasSize] using hasSizeOfIsClosed e h
  | vector _, _ => rfl
  | tuple ts, h => by simp only [isClosed] at h; simpa [hasSize] using allHaveSizeOfAllClosed ts h
  | struct ts _ _ _, h => by
    simp only [isClosed, Bool.and_eq_true] at h
    simpa [hasSize] using allHaveSizeOfAllClosed ts h.2
  | enum ts _ _ _, h => by
    simp only [isClosed, Bool.and_eq_true] at h
    simpa [hasSize] using allHaveSizeOfAllClosed ts h.2
  | unspecified, h => by simp [isClosed] at h

theorem allHaveSizeOfAllClosed : (ts : List ParamType) → allClosed ts = true → allHaveSize ts = true
  | [], _ => rfl
  | t :: ts, h => by
    simp only [allClosed, Bool.and_eq_true] at h
    simp [allHaveSize, hasSizeOfIsClosed t h.1, allHaveSizeOfAllClosed ts h.2]

end

end ParamType

structure EnumVariants where
  types : List ParamType
  names : List String
  deriving Inhabited

namespace EnumVariants

def payloadWidth (vs : EnumVariants) : Int := ParamType.widest (ParamType.staticSizes vs.types)

def width (vs : EnumVariants) : Int := 8 + vs.payloadWidth

def type? (vs : EnumVariants) (discriminant : Int) : Option ParamType :=
  if discriminant < 0 then none else vs.types[discriminant.toNat]?

def name? (vs : EnumVariants) (discriminant : Int) : Option String :=
  if discriminant < 0 then none else vs.names[discriminant.toNat]?

def same (vs ws : EnumVariants) : Bool := ParamType.sameList vs.types ws.types

theorem typeOfNat (vs : EnumVariants) (n : Nat) : vs.type? n = vs.types[n]? := by
  rw [type?, if_neg (by omega), Int.toNat_natCast]

end EnumVariants

end WordAbi
