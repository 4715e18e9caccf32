import Mathlib.Data.List.Basic
import WordAbi.ParamType.Signature
/-! Signatures tell parameter types apart. The text of a type is never the beginning of the text of a type
of another shape, whatever follows it; so a list of types is read back from the text of a signature up to
the names within types. -/
namespace WordAbi

theorem Decimal.natCharsDigits {n : Nat} {c : Char} (member : c ∈ natChars n) : c.isDigit = true :=
  Nat.isDigit_of_mem_toDigits (by decide) (by decide) member

theorem Decimal.natCharsInjective {m n : Nat} (same : natChars m = natChars n) : m = n := by
  have value := congrArg (Nat.ofDigitChars 10 · 0) same
  simpa only [natChars, Nat.ofDigitChars_ten_toDigits] using value

theorem Decimal.intCharsInjective {m n : Int} (same : intChars m = intChars n) : m = n := by
  have unsigned : ∀ {k : Nat} {rest}, natChars k ≠ '-' :: rest := by
    intro k rest absurd
    have digit := natCharsDigits (absurd ▸ List.mem_cons_self)
    cases digit
  unfold intChars at same
  split at same <;> split at same
  · have value := natCharsInjective (List.cons.inj same).2
    omega
  · exact absurd same.symm unsigned
  · exact absurd same unsigned
  · have value := natCharsInjective same
    omega

theorem Decimal.notMemIntChars {c : Char} (noDigit : c.isDigit = false) (noSign : c ≠ '-') (n : Int) :
    c ∉ intChars n := by
  have digits : c ∉ natChars n.natAbs := by
    intro member
    rw [natCharsDigits member] at noDigit
    cases noDigit
  unfold intChars
  split
  · exact List.not_mem_cons_of_ne_of_not_mem noSign digits
  · exact digits

namespace ParamType

theorem endsAtMark {mark : Char} {as bs xs ys : List Char} (one : mark ∉ as) (two : mark ∉ bs)
    (same : as ++ mark :: xs = bs ++ mark :: ys) : as = bs ∧ xs = ys := by
  have position := congrArg (List.idxOf mark) same
  rw [List.idxOf_append_of_notMem one, List.idxOf_append_of_notMem two, List.idxOf_cons_self,
    List.idxOf_cons_self] at position
  obtain ⟨firsts, rests⟩ := List.append_inj same (by omega)
  exact ⟨firsts, (List.cons.inj rests).2⟩

theorem lengthEndsAtMark {m n : Int} {xs ys : List Char}
    (same : Decimal.intChars m ++ ']' :: xs = Decimal.intChars n ++ ']' :: ys) : m = n ∧ xs = ys := by
  have unmarked := Decimal.notMemIntChars (c := ']') rfl (by decide)
  obtain ⟨digits, rests⟩ := endsAtMark (unmarked m) (unmarked n) same
  exact ⟨Decimal.intCharsInjective digits, rests⟩

mutual

def tuplesFilled : ParamType → Bool
  | primitive _ => true
  | string _ => true
  | array element _ => tuplesFilled element
  | vector element => tuplesFilled element
  | tuple elements => !elements.isEmpty && allTuplesFilled elements
  | struct fields generics _ _ => allTuplesFilled generics && allTuplesFilled fields
  | enum variants generics _ _ => allTuplesFilled generics && allTuplesFilled variants
  | unspecified => true

def allTuplesFilled : List ParamType → Bool
  | [] => true
  | t :: ts => tuplesFilled t && allTuplesFilled ts

end

theorem allTuplesFilledEqAll (ts : List ParamType) : allTuplesFilled ts = ts.all tuplesFilled := by
  induction ts with
  | nil => rfl
  | cons t ts ih => simp [allTuplesFilled, ih]

mutual

@[simp] theorem signatureCharsShape : (t : ParamType) → signatureChars (shape t) = signatureChars t
  | primitive _ => rfl
  | string _ => rfl
  | array element _ => by simp only [shape, signatureChars, signatureCharsShape element]
  | vector element => by simp only [shape, signatureChars, signatureCharsShape element]
  | tuple elements => by simp only [shape, signatureChars, signatureCharsListShapes elements]
  | struct fields generics _ _ => by
    simp only [shape, signatureChars, signatureCharsListShapes fields, signatureCharsListShapes generics]
  | enum variants generics _ _ => by
    simp only [shape, signatureChars, signatureCharsListShapes variants, signatureCharsListShapes generics]
  | unspecified => rfl

@[simp] theorem signatureCharsListShapes : (ts : List ParamType) →
    signatureCharsList (shapes ts) = signatureCharsList ts
  | [] => rfl
  | t :: ts => by
    simp only [shapes, signatureCharsList, signatureCharsShape t, signatureCharsListShapes ts]

end

theorem signatureCharsOfShape {t u : ParamType} (alike : shape t = shape u) :
    signatureChars t = signatureChars u := by
  rw [← signatureCharsShape t, alike, signatureCharsShape]

mutual

@[simp] theorem isClosedShape : (t : ParamType) → isClosed (shape t) = isClosed t
  | primitive _ => rfl
  | string _ => rfl
  | array element _ => isClosedShape element
  | vector element => isClosedShape element
  | tuple elements => allClosedShapes elements
  | struct fields generics _ _ => by
    simp only [shape, isClosed, allClosedShapes fields, allClosedShapes generics]
  | enum variants generics _ _ => by
    simp only [shape, isClosed, allClosedShapes variants, allClosedShapes generics]
  | unspecified => rfl

@[simp] theorem allClosedShapes : (ts : List ParamType) → allClosed (shapes ts) = allClosed ts
  | [] => rfl
  | t :: ts => by simp only [shapes, allClosed, isClosedShape t, allClosedShapes ts]

end

structure Readable (t : ParamType) : Prop where
  closed : t.isClosed = true
  filled : t.tuplesFilled = true

theorem readableOfMem {ts : List ParamType} (closed : allClosed ts = true)
    (filled : allTuplesFilled ts = true) : ∀ t ∈ ts, t.Readable := by
  rw [allClosedEqAll, List.all_eq_true] at closed
  rw [allTuplesFilledEqAll, List.all_eq_true] at filled
  exact fun t member => ⟨closed t member, filled t member⟩

theorem readableArray {element : ParamType} {length : Int} (readable : (array element length).Readable) :
    element.Readable := ⟨readable.closed, readable.filled⟩

theorem readableVector {element : ParamType} (readable : (vector element).Readable) : element.Readable :=
  ⟨readable.closed, readable.filled⟩

theorem readableTuple {elements : List ParamType} (readable : (tuple elements).Readable) :
    elements ≠ [] ∧ ∀ t ∈ elements, t.Readable := by
  obtain ⟨closed, filled⟩ := readable
  simp only [tuplesFilled, Bool.and_eq_true, Bool.not_eq_true', List.isEmpty_eq_false_iff] at filled
  exact ⟨filled.1, readableOfMem closed filled.2⟩

theorem readableStruct {fields generics : List ParamType} {name : String} {names : List String}
    (readable : (struct fields generics name names).Readable) :
    (∀ t ∈ generics, t.Readable) ∧ ∀ t ∈ fields, t.Readable := by
  obtain ⟨closed, filled⟩ := readable
  simp only [isClosed, Bool.and_eq_true] at closed
  simp only [tuplesFilled, Bool.and_eq_true] at filled
  exact ⟨readableOfMem closed.1 filled.1, readableOfMem closed.2 filled.2⟩

theorem readableEnum {variants generics : List ParamType} {name : String} {names : List String}
    (readable : (enum variants generics name names).Readable) :
    (∀ t ∈ generics, t.Readable) ∧ ∀ t ∈ variants, t.Readable :=
  @readableStruct variants generics name names ⟨readable.closed, readable.filled⟩

def joined (ts : List ParamType) : List Char := commaJoined (signatureCharsList ts)

def continued (ts : List ParamType) : List Char := ts.flatMap fun t => ',' :: signatureChars t

theorem joinedCons (t : ParamType) (ts : List ParamType) :
    joined (t :: ts) = signatureChars t ++ continued ts := by
  induction ts generalizing t with
  | nil => simp [joined, commaJoined, signatureCharsList, continued]
  | cons u us ih =>
    have next := ih u
    simp only [joined, commaJoined, signatureCharsList] at next ⊢
    rw [List.intercalate_cons_cons, next]
    simp [continued]

def begins (c : Char) : Bool := ['(', 'a', 'b', 'e', 's', 'u'].contains c

theorem signatureBegins (t : ParamType) (readable : t.Readable) :
    ∃ c rest, signatureChars t = c :: rest ∧ begins c = true := by
  cases t with
  | primitive p => cases p <;> exact ⟨_, _, rfl, rfl⟩
  | unspecified => cases readable.closed
  | _ => exact ⟨_, _, rfl, rfl⟩

def Apart (t : ParamType) : Prop :=
  ∀ {u : ParamType} {x y : List Char}, u.Readable → signatureChars t ++ x = signatureChars u ++ y →
    shape t = shape u ∧ x = y

section

variable {ts us gs hs : List ParamType} {c d : Char} {x y : List Char}

theorem continuedApart (each : ∀ t ∈ ts, Apart t) (readable : ∀ u ∈ us, u.Readable) (close : c ≠ ',')
    (closeToo : d ≠ ',') (same : continued ts ++ c :: x = continued us ++ d :: y) :
    shapes ts = shapes us ∧ c = d ∧ x = y := by
  induction ts generalizing us with
  | nil =>
    cases us with
    | nil => exact ⟨rfl, List.cons.inj same⟩
    | cons u us => exact absurd (List.cons.inj same).1 close
  | cons t ts ih =>
    obtain ⟨first, rest⟩ := List.forall_mem_cons.mp each
    cases us with
    | nil => exact absurd (List.cons.inj same).1.symm closeToo
    | cons u us =>
      obtain ⟨readableFirst, readableRest⟩ := List.forall_mem_cons.mp readable
      simp only [continued, List.flatMap_cons, List.cons_append, List.append_assoc, List.cons.injEq,
        true_and] at same
      obtain ⟨alike, same⟩ := first readableFirst same
      obtain ⟨alikes, closes, rests⟩ := ih rest readableRest same
      exact ⟨by rw [shapes, shapes, alike, alikes], closes, rests⟩

theorem joinedBegins (readable : ∀ t ∈ ts, t.Readable) :
    ts = [] ∨ ∃ c rest, joined ts = c :: rest ∧ begins c = true := by
  cases ts with
  | nil => exact .inl rfl
  | cons t ts =>
    obtain ⟨c, rest, text, beginning⟩ := signatureBegins t (readable t List.mem_cons_self)
    refine .inr ⟨c, rest ++ continued ts, ?_, beginning⟩
    rw [joinedCons, text, List.cons_append]

def closes (c : Char) : Prop := c = ')' ∨ c = '>'

theorem closesNotComma (close : closes c) : c ≠ ',' := by
  rcases close with rfl | rfl <;> decide

theorem closesNotBegins (close : closes c) : begins c = false := by
  rcases close with rfl | rfl <;> rfl

theorem joinedApart (each : ∀ t ∈ ts, Apart t) (here : ∀ t ∈ ts, t.Readable)
    (readable : ∀ u ∈ us, u.Readable) (close : closes c) (closeToo : closes d)
    (same : joined ts ++ c :: x = joined us ++ d :: y) : shapes ts = shapes us ∧ c = d ∧ x = y := by
  cases ts with
  | nil =>
    rcases joinedBegins readable with rfl | ⟨e, rest, text, beginning⟩
    · exact ⟨rfl, List.cons.inj same⟩
    · rw [text] at same
      obtain rfl := (List.cons.inj same).1
      rw [closesNotBegins close] at beginning
      cases beginning
  | cons t ts =>
    cases us with
    | nil =>
      obtain ⟨e, rest, text, beginning⟩ := signatureBegins t (here t List.mem_cons_self)
      rw [joinedCons, text] at same
      obtain rfl := (List.cons.inj same).1
      rw [closesNotBegins closeToo] at beginning
      cases beginning
    | cons u us =>
      obtain ⟨first, rest⟩ := List.forall_mem_cons.mp each
      obtain ⟨readableFirst, readableRest⟩ := List.forall_mem_cons.mp readable
      rw [joinedCons, joinedCons, List.append_assoc, List.append_assoc] at same
      obtain ⟨alike, same⟩ := first readableFirst same
      obtain ⟨alikes, equal, rests⟩ :=
        continuedApart rest readableRest (closesNotComma close) (closesNotComma closeToo) same
      exact ⟨by rw [shapes, shapes, alike, alikes], equal, rests⟩

def membersChars (generics parts : List ParamType) : List Char :=
  genericsChars (signatureCharsList generics) ++ '(' :: joined parts ++ [')']

theorem membersBare (parts : List ParamType) (x : List Char) :
    membersChars [] parts ++ x = '(' :: (joined parts ++ ')' :: x) := by
  simp [membersChars, genericsChars, signatureCharsList]

theorem membersGeneric (g : ParamType) (gs parts : List ParamType) (x : List Char) :
    membersChars (g :: gs) parts ++ x =
      '<' :: (joined (g :: gs) ++ '>' :: '(' :: (joined parts ++ ')' :: x)) := by
  simp [membersChars, genericsChars, signatureCharsList, joined]

theorem structChars (fields generics : List ParamType) (name : String) (names : List String) (x : List Char) :
    signatureChars (struct fields generics name names) ++ x = 's' :: (membersChars generics fields ++ x) := by
  simp [signatureChars, membersChars, joined]

theorem enumChars (variants generics : List ParamType) (name : String) (names : List String)
    (x : List Char) :
    signatureChars (enum variants generics name names) ++ x =
      'e' :: (membersChars generics variants ++ x) := by
  simp [signatureChars, membersChars, joined]

theorem membersApart (eachGeneric : ∀ t ∈ gs, Apart t) (each : ∀ t ∈ ts, Apart t)
    (readableGenerics : (∀ t ∈ gs, t.Readable) ∧ ∀ t ∈ ts, t.Readable)
    (readable : (∀ t ∈ hs, t.Readable) ∧ ∀ t ∈ us, t.Readable)
    (same : membersChars gs ts ++ x = membersChars hs us ++ y) :
    shapes gs = shapes hs ∧ shapes ts = shapes us ∧ x = y := by
  have round : ∀ {x y}, joined ts ++ ')' :: x = joined us ++ ')' :: y → shapes ts = shapes us ∧ x = y := by
    intro x y same
    obtain ⟨alike, _, rest⟩ := joinedApart each readableGenerics.2 readable.2 (.inl rfl) (.inl rfl) same
    exact ⟨alike, rest⟩
  cases gs with
  | nil =>
    cases hs with
    | nil =>
      rw [membersBare, membersBare] at same
      exact ⟨rfl, round (List.cons.inj same).2⟩
    | cons h hs =>
      rw [membersBare, membersGeneric] at same
      cases (List.cons.inj same).1
  | cons g gs =>
    cases hs with
    | nil =>
      rw [membersBare, membersGeneric] at same
      cases (List.cons.inj same).1
    | cons h hs =>
      rw [membersGeneric, membersGeneric] at same
      obtain ⟨alike, _, rest⟩ := joinedApart eachGeneric readableGenerics.1 readable.1 (.inr rfl) (.inr rfl)
        (List.cons.inj same).2
      exact ⟨alike, round (List.cons.inj rest).2⟩

def pointerChars (element : ParamType) : List Char :=
  "s<".toList ++ signatureChars element ++ ">(rawptr,u64)".toList

theorem joinedSingle (t : ParamType) : joined [t] = signatureChars t := by
  rw [joinedCons, continued, List.flatMap_nil, List.append_nil]

theorem pointerCharsEq (element : ParamType) (y : List Char) :
    pointerChars element ++ y =
      's' :: '<' :: (joined [element] ++ '>' :: '(' :: 'r' :: ("awptr,u64)".toList ++ y)) := by
  simp [pointerChars, joinedSingle]

theorem vectorChars (element : ParamType) (x : List Char) :
    signatureChars (vector element) ++ x =
      's' :: '<' :: (joined [element] ++ '>' :: '(' :: (pointerChars element ++ ",u64)".toList ++ x)) := by
  simp [signatureChars, pointerChars, joinedSingle]

theorem genericApart {element : ParamType} (apart : Apart element) (here : element.Readable)
    (readable : ∀ t ∈ hs, t.Readable)
    (same : joined [element] ++ '>' :: x = joined hs ++ '>' :: y) :
    shapes [element] = shapes hs ∧ x = y := by
  obtain ⟨alike, _, rest⟩ := joinedApart (List.forall_mem_singleton.mpr apart)
    (List.forall_mem_singleton.mpr here) readable (.inr rfl) (.inr rfl) same
  exact ⟨alike, rest⟩

theorem pointerNotType {element u : ParamType} (apart : Apart element) (here : element.Readable)
    (readable : u.Readable) (x y : List Char) : signatureChars u ++ x ≠ pointerChars element ++ y := by
  intro same
  rw [pointerCharsEq] at same
  cases u with
  | unspecified => cases readable.closed
  | primitive p => cases p <;> simp [signatureChars, Primitive.keyword] at same
  | string length => simp [signatureChars] at same
  | array element length => simp [signatureChars] at same
  | tuple elements => simp [signatureChars] at same
  | enum variants generics name names => simp [signatureChars] at same
  | vector other =>
    rw [vectorChars, pointerChars] at same
    obtain ⟨_, rest⟩ := genericApart apart here (List.forall_mem_singleton.mpr (readableVector readable))
      (List.cons.inj (List.cons.inj same).2).2.symm
    cases (List.cons.inj (List.cons.inj rest).2).1
  | struct fields generics name names =>
    obtain ⟨readableGenerics, readableFields⟩ := readableStruct readable
    rw [structChars] at same
    cases generics with
    | nil =>
      rw [membersBare] at same
      cases (List.cons.inj (List.cons.inj same).2).1
    | cons g gs =>
      rw [membersGeneric] at same
      obtain ⟨_, rest⟩ := genericApart apart here readableGenerics
        (List.cons.inj (List.cons.inj same).2).2.symm
      have first := (List.cons.inj rest).2
      rcases joinedBegins readableFields with rfl | ⟨c, fields, text, beginning⟩
      · cases (List.cons.inj first).1
      · rw [text] at first
        obtain rfl := (List.cons.inj first).1
        cases beginning

theorem vectorNotStruct {element : ParamType} (apart : Apart element) (here : element.Readable)
    {fields generics : List ParamType} (readable : (∀ t ∈ generics, t.Readable) ∧ ∀ t ∈ fields, t.Readable)
    (x y : List Char) :
    signatureChars (vector element) ++ x ≠ 's' :: (membersChars generics fields ++ y) := by
  intro same
  rw [vectorChars] at same
  cases generics with
  | nil =>
    rw [membersBare] at same
    cases (List.cons.inj (List.cons.inj same).2).1
  | cons g gs =>
    rw [membersGeneric] at same
    obtain ⟨_, rest⟩ := genericApart apart here readable.1 (List.cons.inj (List.cons.inj same).2).2
    have pointer := (List.cons.inj rest).2
    cases fields with
    | nil => cases (List.cons.inj pointer).1
    | cons field fields =>
      rw [joinedCons, List.append_assoc, List.append_assoc] at pointer
      exact pointerNotType apart here (readable.2 field List.mem_cons_self) _ _ pointer.symm

theorem structNotVector {element : ParamType} (here : element.Readable)
    {fields generics : List ParamType} (eachGeneric : ∀ t ∈ generics, Apart t)
    (readable : (∀ t ∈ generics, t.Readable) ∧ ∀ t ∈ fields, t.Readable) (x y : List Char) :
    's' :: (membersChars generics fields ++ x) ≠ signatureChars (vector element) ++ y := by
  intro same
  cases generics with
  | nil =>
    rw [membersBare, vectorChars] at same
    cases (List.cons.inj (List.cons.inj same).2).1
  | cons g gs =>
    have text := same
    rw [membersGeneric, vectorChars] at text
    obtain ⟨alike, _, _⟩ := joinedApart eachGeneric readable.1 (List.forall_mem_singleton.mpr here)
      (.inr rfl) (.inr rfl) (List.cons.inj (List.cons.inj text).2).2
    have alike : shape (vector element) = shape (vector g) := by
      rw [shape, shape, (List.cons.inj alike).1]
    rw [signatureCharsOfShape alike] at same
    exact vectorNotStruct (eachGeneric g List.mem_cons_self) (readable.1 g List.mem_cons_self) readable _ _
      same.symm

theorem tupleChars (elements : List ParamType) (x : List Char) :
    signatureChars (tuple elements) ++ x = '(' :: (joined elements ++ ')' :: x) := by
  simp [signatureChars, joined]

theorem unitNotTuple (readable : (tuple ts).Readable) (x y : List Char) :
    signatureChars (primitive .unit) ++ x ≠ signatureChars (tuple ts) ++ y := by
  intro same
  rw [tupleChars] at same
  obtain ⟨some, each⟩ := readableTuple readable
  rcases joinedBegins each with rfl | ⟨c, rest, text, beginning⟩
  · exact some rfl
  · rw [text] at same
    obtain rfl := (List.cons.inj (List.cons.inj same).2).1
    cases beginning

theorem stringNotStruct (length : Int) (fields generics : List ParamType) (x y : List Char) :
    signatureChars (string length) ++ x ≠ 's' :: (membersChars generics fields ++ y) := by
  cases generics with
  | nil => simp [membersBare, signatureChars]
  | cons g gs => simp [membersGeneric, signatureChars]

theorem apartPrimitive (p : Primitive) : Apart (primitive p) := by
  intro u x y readable same
  cases u with
  | unspecified => cases readable.closed
  | primitive q => cases p <;> cases q <;> simp_all [signatureChars, Primitive.keyword]
  | tuple elements =>
    cases p with
    | unit => exact absurd same (unitNotTuple readable x y)
    | _ => simp [signatureChars, Primitive.keyword] at same
  | _ => cases p <;> simp [signatureChars, Primitive.keyword] at same

theorem apartString (length : Int) : Apart (string length) := by
  intro u x y readable same
  cases u with
  | unspecified => cases readable.closed
  | primitive q => cases q <;> simp [signatureChars, Primitive.keyword] at same
  | string other =>
    simp only [signatureChars, List.append_assoc, List.append_cancel_left_eq] at same
    obtain ⟨rfl, rest⟩ := lengthEndsAtMark same
    exact ⟨rfl, rest⟩
  | struct fields generics name names =>
    rw [structChars] at same
    exact absurd same (stringNotStruct length fields generics x y)
  | _ => simp [signatureChars] at same

theorem apartArray {element : ParamType} (apart : Apart element) (length : Int) :
    Apart (array element length) := by
  intro u x y readable same
  cases u with
  | unspecified => cases readable.closed
  | primitive q => cases q <;> simp [signatureChars, Primitive.keyword] at same
  | array other count =>
    simp only [signatureChars, List.append_assoc, List.append_cancel_left_eq, List.cons_append] at same
    obtain ⟨alike, next⟩ := apart (readableArray readable) same
    obtain ⟨rfl, rest⟩ := lengthEndsAtMark (List.cons.inj next).2
    exact ⟨by rw [shape, shape, alike], rest⟩
  | _ => simp [signatureChars] at same

theorem apartVector {element : ParamType} (apart : Apart element) (here : element.Readable) :
    Apart (vector element) := by
  intro u x y readable same
  cases u with
  | unspecified => cases readable.closed
  | primitive q => cases q <;> simp [signatureChars, Primitive.keyword] at same
  | vector other =>
    have text := same
    rw [vectorChars, vectorChars] at text
    obtain ⟨alike, _⟩ := genericApart apart here (List.forall_mem_singleton.mpr (readableVector readable))
      (List.cons.inj (List.cons.inj text).2).2
    have alike : shape (vector element) = shape (vector other) := by
      rw [shape, shape, (List.cons.inj alike).1]
    rw [signatureCharsOfShape alike, List.append_cancel_left_eq] at same
    exact ⟨alike, same⟩
  | struct fields generics name names =>
    rw [structChars] at same
    exact absurd same (vectorNotStruct apart here (readableStruct readable) x y)
  | _ => simp [signatureChars] at same

theorem apartTuple (each : ∀ t ∈ ts, Apart t) (here : (tuple ts).Readable) : Apart (tuple ts) := by
  intro u x y readable same
  cases u with
  | unspecified => cases readable.closed
  | primitive q =>
    cases q with
    | unit => exact absurd same.symm (unitNotTuple here y x)
    | _ => simp [signatureChars, Primitive.keyword] at same
  | tuple others =>
    rw [tupleChars, tupleChars] at same
    obtain ⟨alike, _, rest⟩ := joinedApart each (readableTuple here).2 (readableTuple readable).2
      (.inl rfl) (.inl rfl) (List.cons.inj same).2
    exact ⟨by rw [shape, shape, alike], rest⟩
  | _ => simp [signatureChars] at same

theorem apartStruct (eachGeneric : ∀ t ∈ gs, Apart t) (each : ∀ t ∈ ts, Apart t) {name : String}
    {names : List String} (here : (struct ts gs name names).Readable) :
    Apart (struct ts gs name names) := by
  intro u x y readable same
  rw [structChars] at same
  cases u with
  | unspecified => cases readable.closed
  | primitive q => cases q <;> simp [signatureChars, Primitive.keyword] at same
  | string length => exact absurd same.symm (stringNotStruct length ts gs y x)
  | vector element =>
    exact absurd same (structNotVector (readableVector readable) eachGeneric (readableStruct here) x y)
  | struct fields generics other others =>
    rw [structChars] at same
    obtain ⟨alikeGenerics, alike, rest⟩ := membersApart eachGeneric each (readableStruct here)
      (readableStruct readable) (List.cons.inj same).2
    exact ⟨by rw [shape, shape, alikeGenerics, alike], rest⟩
  | _ => simp [signatureChars] at same

theorem apartEnum (eachGeneric : ∀ t ∈ gs, Apart t) (each : ∀ t ∈ ts, Apart t) {name : String}
    {names : List String} (here : (enum ts gs name names).Readable) : Apart (enum ts gs name names) := by
  intro u x y readable same
  rw [enumChars] at same
  cases u with
  | unspecified => cases readable.closed
  | primitive q => cases q <;> simp [signatureChars, Primitive.keyword] at same
  | enum variants generics other others =>
    rw [enumChars] at same
    obtain ⟨alikeGenerics, alike, rest⟩ := membersApart eachGeneric each (readableEnum here)
      (readableEnum readable) (List.cons.inj same).2
    exact ⟨by rw [shape, shape, alikeGenerics, alike], rest⟩
  | _ => simp [signatureChars] at same

end

mutual

theorem apartOfReadable : (t : ParamType) → t.Readable → Apart t
  | primitive p, _ => apartPrimitive p
  | string length, _ => apartString length
  | array element length, readable => apartArray (apartOfReadable element (readableArray readable)) length
  | vector element, readable =>
    apartVector (apartOfReadable element (readableVector readable)) (readableVector readable)
  | tuple elements, readable => apartTuple (eachApart elements (readableTuple readable).2) readable
  | struct fields generics _ _, readable =>
    apartStruct (eachApart generics (readableStruct readable).1)
      (eachApart fields (readableStruct readable).2) readable
  | enum variants generics _ _, readable =>
    apartEnum (eachApart generics (readableEnum readable).1)
      (eachApart variants (readableEnum readable).2) readable
  | unspecified, readable => by cases readable.closed

theorem eachApart : (ts : List ParamType) → (∀ t ∈ ts, t.Readable) → ∀ t ∈ ts, Apart t
  | [], _, _, member => nomatch member
  | t :: ts, readable, u, member => by
    obtain ⟨first, rest⟩ := List.forall_mem_cons.mp readable
    rcases List.mem_cons.mp member with same | member
    · rw [same]
      exact apartOfReadable t first
    · exact eachApart ts rest u member

end

end ParamType

namespace Signature

open ParamType

theorem charsEq (name : String) (types : List ParamType) :
    chars name types = name.toList ++ '(' :: (joined types ++ [')']) := by
  rw [chars, joined, List.append_assoc, List.cons_append]

theorem ofFunctionOk {name text : String} {types : List ParamType} :
    ofFunction name types = .ok text ↔ allClosed types = true ∧ text = String.ofList (chars name types) := by
  unfold ofFunction
  split
  · rename_i closed
    rw [Except.ok.injEq, eq_comm, and_iff_right closed]
  · rename_i unclosed
    exact ⟨fun refused => (nomatch refused), fun given => absurd given.1 unclosed⟩

/-- One text is the signature of both functions exactly when they have one name, and equal lists of types
that can all be written. A name is an identifier, and so without the bracket that ends it. -/
theorem identifiesTypes (name other : String) (types others : List ParamType)
    (named : '(' ∉ name.toList) (namedToo : '(' ∉ other.toList)
    (filled : allTuplesFilled types = true) (filledToo : allTuplesFilled others = true) :
    (∃ text, ofFunction name types = .ok text ∧ ofFunction other others = .ok text) ↔
      name = other ∧ sameList types others = true ∧ allClosed types = true := by
  rw [sameListIff]
  constructor
  · rintro ⟨text, one, two⟩
    obtain ⟨closed, rfl⟩ := ofFunctionOk.mp one
    obtain ⟨closedToo, same⟩ := ofFunctionOk.mp two
    rw [String.ofList_inj, charsEq, charsEq] at same
    obtain ⟨names, rest⟩ := endsAtMark named namedToo same
    have readable := readableOfMem closed filled
    obtain ⟨alike, _⟩ := joinedApart (eachApart types readable) readable
      (readableOfMem closedToo filledToo) (.inl rfl) (.inl rfl) rest
    exact ⟨String.toList_inj.mp names, alike, closed⟩
  · rintro ⟨rfl, alike, closed⟩
    have closedToo : allClosed others = true := by
      rw [← allClosedShapes, ← alike, allClosedShapes]
      exact closed
    have texts : chars name types = chars name others := by
      rw [chars, chars, ← signatureCharsListShapes types, alike, signatureCharsListShapes]
    exact ⟨_, ofFunctionOk.mpr ⟨closed, rfl⟩, ofFunctionOk.mpr ⟨closedToo, by rw [texts]⟩⟩

theorem identifiesTypesNested :
    let pair := fun name first second =>
      ParamType.struct [.vector (.primitive .u64), .tuple [.primitive .unit, .string 4]]
        [.vector (.primitive .u64)] name [first, second]
    let choice := fun argument =>
      ParamType.enum [.array (.primitive .byte) 3, .primitive .unit] [argument] "Choice" ["some", "none"]
    let types := [pair "Pair" "numbers" "rest", .vector (choice (.primitive .u8))]
    let others := [pair "Other" "a" "b", .vector (choice (.primitive .u8))]
    let changed := [pair "Pair" "numbers" "rest", .vector (choice (.primitive .bool))]
    '(' ∉ "transfer".toList ∧ allTuplesFilled types = true ∧ allTuplesFilled others = true ∧
      allTuplesFilled changed = true ∧
      (∃ text, ofFunction "transfer" types = .ok text ∧ ofFunction "transfer" others = .ok text) ∧
      ¬ ∃ text, ofFunction "transfer" types = .ok text ∧ ofFunction "transfer" changed = .ok text := by
  intro pair choice types others changed
  have named : '(' ∉ "transfer".toList := by decide
  have filled : allTuplesFilled types = true := by decide
  have filledToo : allTuplesFilled others = true := by decide
  have filledLast : allTuplesFilled changed = true := by decide
  refine ⟨named, filled, filledToo, filledLast, ?_, ?_⟩
  · exact (identifiesTypes "transfer" "transfer" types others named named filled filledToo).mpr (by decide)
  · rw [identifiesTypes "transfer" "transfer" types changed named named filled filledLast]
    decide

example : chars "f" [.tuple []] = chars "f" [.primitive .unit] := rfl

end Signature

end WordAbi
