import WordAbi.Native.Basic
import WordAbi.Table
/-! JSON values. Whole numbers and numbers with a point or an exponent are told apart, and members of
an object keep their order. -/
namespace WordAbi

inductive Json where
  | null
  | bool (b : Bool)
  | int (n : Int)
  | float (x : Binary64)
  | str (text : String)
  | arr (items : List Json)
  | obj (members : List (String × Json))
  deriving Inhabited

namespace Json

def member? (name : String) : Json → Option Json
  | obj members => Table.get? members name
  | _ => none

mutual

def toNative {ε : Type} : Json → Native ε
  | null => .null
  | bool b => .bool b
  | int n => .int n
  | float x => .float x
  | str text => .str text
  | arr items => .list (toNativeList items)
  | obj members => .dict (toNativeMembers members)

def toNativeList {ε : Type} : List Json → List (Native ε)
  | [] => []
  | v :: vs => toNative v :: toNativeList vs

def toNativeMembers {ε : Type} : List (String × Json) → List (Native ε × Native ε)
  | [] => []
  | (name, v) :: rest => (.str name, toNative v) :: toNativeMembers rest

end

theorem toNativeListEqMap {ε : Type} (vs : List Json) :
    toNativeList (ε := ε) vs = vs.map toNative := by
  induction vs with
  | nil => rfl
  | cons v vs ih => simp [toNativeList, ih]

theorem toNativeMembersEqMap {ε : Type} (members : List (String × Json)) :
    toNativeMembers (ε := ε) members = members.map fun member => (.str member.1, member.2.toNative) := by
  induction members with
  | nil => rfl
  | cons member members ih => simp [toNativeMembers, ih]

end Json

end WordAbi
