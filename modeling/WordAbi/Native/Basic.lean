import WordAbi.Bytes.Basic
import WordAbi.Number.Binary64
/-! Values as callers write them, before a type has given them a meaning. -/
namespace WordAbi

/-- A value as a caller writes it. `embedded` holds what other modules place among such values;
the entries of `dict` are in the order of insertion. -/
inductive Native (ε : Type) where
  | null
  | bool (b : Bool)
  | int (n : Int)
  | float (x : Binary64)
  | str (text : String)
  | bytes (bs : Bytes)
  | list (items : List (Native ε))
  | tuple (items : List (Native ε))
  | dict (entries : List (Native ε × Native ε))
  | embedded (e : ε)
  deriving Inhabited

abbrev Datum := Native Empty

namespace Native

def kindName {ε : Type} (embedded : ε → String) : Native ε → String
  | null => "NoneType"
  | .bool _ => "bool"
  | int _ => "int"
  | float _ => "float"
  | str _ => "str"
  | .bytes _ => "bytes"
  | list _ => "list"
  | tuple _ => "tuple"
  | dict _ => "dict"
  | .embedded e => embedded e

def wholeNumber? {ε : Type} : Native ε → Option Int
  | .bool b => some (if b then 1 else 0)
  | int n => some n
  | _ => none

def sameNumber {ε : Type} (v w : Native ε) : Bool :=
  match v.wholeNumber?, w.wholeNumber? with
  | some m, some n => m == n
  | some m, none => match w with
    | float y => y.equalsInt m
    | _ => false
  | none, some n => match v with
    | float x => x.equalsInt n
    | _ => false
  | none, none => match v, w with
    | float x, float y => x.equals y
    | _, _ => false

/-- Equality by an equality of embedded parts: numbers by value, entries of `dict` in any order. -/
def same {ε : Type} (embedded : ε → ε → Bool) (v w : Native ε) : Bool :=
  match v with
  | null => match w with
    | null => true
    | _ => false
  | str s => match w with
    | str t => s == t
    | _ => false
  | .bytes bs => match w with
    | .bytes cs => bs == cs
    | _ => false
  | list vs => match w with
    | list ws => sameItems vs ws
    | _ => false
  | tuple vs => match w with
    | tuple ws => sameItems vs ws
    | _ => false
  | dict es => match w with
    | dict fs => es.length == fs.length && sameEntries es fs
    | _ => false
  | .embedded e => match w with
    | .embedded f => embedded e f
    | _ => false
  | .bool b => sameNumber (.bool b) w
  | int n => sameNumber (int n) w
  | float x => sameNumber (float x) w
where
  sameItems : List (Native ε) → List (Native ε) → Bool
    | [], [] => true
    | v :: vs, w :: ws => same embedded v w && sameItems vs ws
    | _, _ => false
  sameEntries : List (Native ε × Native ε) → List (Native ε × Native ε) → Bool
    | [], _ => true
    | (k, v) :: es, fs => fs.any (fun f => same embedded k f.1 && same embedded v f.2) && sameEntries es fs

def lookup {ε : Type} (embedded : ε → ε → Bool) (key : Native ε) :
    List (Native ε × Native ε) → Option (Native ε)
  | [] => none
  | (k, v) :: rest => if same embedded k key then some v else lookup embedded key rest

def insert {ε : Type} (embedded : ε → ε → Bool) (key value : Native ε) :
    List (Native ε × Native ε) → List (Native ε × Native ε)
  | [] => [(key, value)]
  | (k, v) :: rest =>
    if same embedded k key then (k, value) :: rest else (k, v) :: insert embedded key value rest

def ofEntries {ε : Type} (embedded : ε → ε → Bool) (entries : List (Native ε × Native ε)) : Native ε :=
  .dict (entries.foldl (fun es e => insert embedded e.1 e.2 es) [])

def map {ε δ : Type} (f : ε → δ) : Native ε → Native δ
  | null => null
  | .bool b => .bool b
  | int n => int n
  | float x => float x
  | str s => str s
  | .bytes bs => .bytes bs
  | list vs => list (mapItems vs)
  | tuple vs => tuple (mapItems vs)
  | dict es => dict (mapEntries es)
  | .embedded e => .embedded (f e)
where
  mapItems : List (Native ε) → List (Native δ)
    | [] => []
    | v :: vs => map f v :: mapItems vs
  mapEntries : List (Native ε × Native ε) → List (Native δ × Native δ)
    | [] => []
    | (k, v) :: es => (map f k, map f v) :: mapEntries es

end Native

def Datum.lift {ε : Type} (v : Datum) : Native ε := v.map Empty.elim

end WordAbi
