import WordAbi.Native.Basic
/-! Sorting written values. Numbers, texts and byte strings each have an order; sequences are
compared item by item; all other values have no place among others. -/
namespace WordAbi.Native

def lessNumber? {ε : Type} (v w : Native ε) : Option Bool :=
  match v.wholeNumber?, w.wholeNumber?, v, w with
  | some m, some n, _, _ => some (m < n)
  | some m, none, _, float y => some (y.aboveRatio m 1)
  | none, some n, float x, _ => some (x.belowRatio n 1)
  | none, none, float x, float y => some (x.less y)
  | _, _, _, _ => none

def lessBytes : Bytes → Bytes → Bool
  | [], [] => false
  | [], _ :: _ => true
  | _ :: _, [] => false
  | b :: bs, c :: cs => b < c || (b == c && lessBytes bs cs)

def less? {ε : Type} (embedded : ε → ε → Bool) (v w : Native ε) : Option Bool :=
  match v with
  | str s => match w with
    | str t => some (s < t)
    | _ => none
  | .bytes bs => match w with
    | .bytes cs => some (lessBytes bs cs)
    | _ => none
  | list vs => match w with
    | list ws => lessItems vs ws
    | _ => none
  | tuple vs => match w with
    | tuple ws => lessItems vs ws
    | _ => none
  | .bool b => lessNumber? (.bool b) w
  | int n => lessNumber? (int n) w
  | float x => lessNumber? (float x) w
  | null => none
  | dict _ => none
  | .embedded _ => none
where
  lessItems : List (Native ε) → List (Native ε) → Option Bool
    | [], ws => some (!ws.isEmpty)
    | _ :: _, [] => some false
    | v :: vs, w :: ws => if same embedded v w then lessItems vs ws else less? embedded v w

def insertSorted {ε : Type} (embedded : ε → ε → Bool) (v : Native ε) :
    List (Native ε) → Option (List (Native ε))
  | [] => some [v]
  | w :: ws => do
    if ← less? embedded v w then some (v :: w :: ws)
    else
      let rest ← insertSorted embedded v ws
      some (w :: rest)

def sort? {ε : Type} (embedded : ε → ε → Bool) (vs : List (Native ε)) : Option (List (Native ε)) :=
  vs.foldlM (fun sorted v => insertSorted embedded v sorted) []

end WordAbi.Native
