import Mathlib.Data.List.Forall2
/-! Steps that may fail, one after another. Main statement: a chain of steps succeeds exactly when
each of them does; it ends as it should when each step does, given what the steps before it gave. -/
namespace WordAbi.Outcome

variable {ε α β : Type}

theorem bindOk {x : Except ε α} {f : α → Except ε β} {b : β} :
    (x >>= f) = .ok b ↔ ∃ a, x = .ok a ∧ f a = .ok b := by
  cases x with
  | error e => simp [bind, Except.bind]
  | ok a => simp [bind, Except.bind]

theorem bindError {x : Except ε α} {f : α → Except ε β} {fault : ε} :
    (x >>= f) = .error fault ↔ x = .error fault ∨ ∃ a, x = .ok a ∧ f a = .error fault := by
  cases x with
  | error e => simp [bind, Except.bind]
  | ok a => simp [bind, Except.bind]

theorem mapOk {x : Except ε α} {f : α → β} {b : β} :
    x.map f = .ok b ↔ ∃ a, x = .ok a ∧ f a = b := by
  cases x with
  | error e => simp [Except.map]
  | ok a => simp [Except.map]

theorem mapMOk {f : α → Except ε β} {as : List α} {bs : List β} :
    as.mapM f = .ok bs ↔ List.Forall₂ (fun a b => f a = .ok b) as bs := by
  induction as generalizing bs with
  | nil =>
    rw [List.mapM_nil, List.forall₂_nil_left_iff]
    exact ⟨fun same => (Except.ok.inj same).symm, fun empty => congrArg Except.ok empty.symm⟩
  | cons a as ih =>
    simp only [List.mapM_cons, bindOk, List.forall₂_cons_left_iff, ih]
    constructor
    · rintro ⟨b, first, rest, each, last⟩
      exact ⟨b, rest, first, each, (Except.ok.inj last).symm⟩
    · rintro ⟨b, rest, first, each, rfl⟩
      exact ⟨b, first, rest, each, rfl⟩

theorem pairOfMem {R : α → β → Prop} {as : List α} {bs : List β} (each : List.Forall₂ R as bs) :
    ∀ a ∈ as, ∃ b ∈ bs, R a b := by
  induction each with
  | nil => exact fun _ absurd => nomatch absurd
  | cons first _ ih =>
    refine List.forall_mem_cons.mpr ⟨⟨_, List.mem_cons_self, first⟩, fun a member => ?_⟩
    obtain ⟨b, there, holds⟩ := ih a member
    exact ⟨b, List.mem_cons_of_mem _ there, holds⟩

theorem mapMMem {f : α → Except ε β} {as : List α} {bs : List β} (done : as.mapM f = .ok bs) :
    ∀ b ∈ bs, ∃ a ∈ as, f a = .ok b :=
  pairOfMem (mapMOk.mp done).flip

def Succeeds (x : Except ε α) : Prop := ∃ a, x = .ok a

theorem succeedsAfter {x : Except ε α} {a : α} {f : α → Except ε β} (done : x = .ok a)
    (rest : Succeeds (f a)) : Succeeds (x >>= f) := by
  rw [done]
  exact rest

theorem succeedsBind {x : Except ε α} {f : α → Except ε β} (first : Succeeds x)
    (rest : ∀ a, Succeeds (f a)) : Succeeds (x >>= f) := by
  obtain ⟨a, done⟩ := first
  exact succeedsAfter done (rest a)

theorem succeedsMap {x : Except ε α} {f : α → β} (first : Succeeds x) : Succeeds (x.map f) := by
  obtain ⟨a, done⟩ := first
  exact ⟨f a, mapOk.mpr ⟨a, done, rfl⟩⟩

theorem succeedsMapIff {x : Except ε α} {f : α → β} : Succeeds (x.map f) ↔ Succeeds x := by
  refine ⟨fun done => ?_, succeedsMap⟩
  obtain ⟨_, done⟩ := done
  obtain ⟨a, done, _⟩ := mapOk.mp done
  exact ⟨a, done⟩

theorem succeedsConsIff {x : Except ε α} {y : Except ε (List α)} :
    Succeeds (do
      let value ← x
      let values ← y
      .ok (value :: values)) ↔ Succeeds x ∧ Succeeds y := by
  constructor
  · intro done
    obtain ⟨_, done⟩ := done
    obtain ⟨value, first, done⟩ := bindOk.mp done
    obtain ⟨values, rest, _⟩ := bindOk.mp done
    exact ⟨⟨value, first⟩, ⟨values, rest⟩⟩
  · intro done
    exact succeedsBind done.1 fun _ => succeedsBind done.2 fun _ => ⟨_, rfl⟩

theorem succeedsMapM {f : α → Except ε β} {as : List α} (each : ∀ a ∈ as, Succeeds (f a)) :
    Succeeds (as.mapM f) := by
  induction as with
  | nil => exact ⟨[], List.mapM_nil⟩
  | cons a as ih =>
    obtain ⟨first, rest⟩ := List.forall_mem_cons.mp each
    rw [List.mapM_cons]
    exact succeedsBind first fun b => succeedsBind (ih rest) fun bs => ⟨b :: bs, rfl⟩

def Concur (x y : Except ε α) : Prop := ∀ a, x = .ok a ↔ y = .ok a

theorem concurSame {x y : Except ε α} (same : x = y) : Concur x y := fun a => by rw [same]

theorem concurTrans {x y z : Except ε α} (first : Concur x y) (second : Concur y z) : Concur x z :=
  fun a => (first a).trans (second a)

theorem concurFailed (fault refusal : ε) : Concur (.error fault : Except ε α) (.error refusal) := fun a => by simp

theorem concurBind {x y : Except ε α} {f g : α → Except ε β} (first : Concur x y) (rest : ∀ a, Concur (f a) (g a)) :
    Concur (x >>= f) (y >>= g) := by
  intro b
  rw [bindOk, bindOk]
  exact exists_congr fun a => and_congr (first a) (rest a b)

theorem concurMap {x y : Except ε α} (f : α → β) (first : Concur x y) : Concur (x.map f) (y.map f) := by
  intro b
  rw [mapOk, mapOk]
  exact exists_congr fun a => and_congr_left' (first a)

theorem concurMapM {f : α → Except ε β} {as others : List α}
    (each : List.Forall₂ (fun a other => Concur (f a) (f other)) as others) : Concur (as.mapM f) (others.mapM f) := by
  induction each with
  | nil => exact concurSame rfl
  | cons first _ ih =>
    rw [List.mapM_cons, List.mapM_cons]
    exact concurBind first fun b => concurBind ih fun bs => concurSame rfl

theorem concurCases {x y : Except ε α} (concur : Concur x y) :
    (∃ a, x = .ok a ∧ y = .ok a) ∨ ∃ fault refusal, x = .error fault ∧ y = .error refusal := by
  cases x with
  | ok a => exact .inl ⟨a, rfl, (concur a).mp rfl⟩
  | error fault =>
    cases y with
    | ok a => cases (concur a).mpr rfl
    | error refusal => exact .inr ⟨fault, refusal, rfl, rfl⟩

inductive Alike (related : α → β → Prop) : Except ε α → Except ε β → Prop
  | results {a : α} {b : β} (holds : related a b) : Alike related (.ok a) (.ok b)
  | faults (fault refusal : ε) : Alike related (.error fault) (.error refusal)

section

variable {γ δ : Type} {related : α → β → Prop} {x : Except ε α} {y : Except ε β}

theorem alikeBind {f : α → Except ε γ} {g : β → Except ε δ} {after : γ → δ → Prop} (first : Alike related x y)
    (rest : ∀ a b, related a b → Alike after (f a) (g b)) : Alike after (x >>= f) (y >>= g) := by
  cases first with
  | results holds => exact rest _ _ holds
  | faults fault refusal => exact .faults fault refusal

theorem alikeMap {f : α → γ} {g : β → δ} {after : γ → δ → Prop} (first : Alike related x y)
    (rest : ∀ a b, related a b → after (f a) (g b)) : Alike after (x.map f) (y.map g) := by
  cases first with
  | results holds => exact .results (rest _ _ holds)
  | faults fault refusal => exact .faults fault refusal

theorem alikeItself {related : α → α → Prop} {x : Except ε α} (refl : ∀ a, x = .ok a → related a a) :
    Alike related x x := by
  cases x with
  | ok a => exact .results (refl a rfl)
  | error fault => exact .faults fault fault

theorem alikeResult (alike : Alike related x y) {a : α} (done : x = .ok a) : ∃ b, y = .ok b ∧ related a b := by
  cases alike with
  | results holds =>
    cases done
    exact ⟨_, rfl, holds⟩
  | faults _ _ => cases done

end

def Ends (holds : α → Prop) (blame : ε → Prop) : Except ε α → Prop
  | .ok a => holds a
  | .error fault => blame fault

variable {holds : α → Prop} {blame : ε → Prop}

theorem endsBind {x : Except ε α} {f : α → Except ε β} {after : β → Prop} (first : Ends holds blame x)
    (rest : ∀ a, holds a → Ends after blame (f a)) : Ends after blame (x >>= f) := by
  cases x with
  | error fault => exact first
  | ok a => exact rest a first

theorem endsBindOk {x : Except ε α} {f : α → Except ε β} {after : β → Prop} (first : Ends holds blame x)
    (rest : ∀ a, x = .ok a → Ends after blame (f a)) : Ends after blame (x >>= f) := by
  cases x with
  | error fault => exact first
  | ok a => exact rest a rfl

theorem endsAfter {x : Except ε α} {a : α} {f : α → Except ε β} {after : β → Prop} (done : x = .ok a)
    (rest : Ends after blame (f a)) : Ends after blame (x >>= f) := by
  rw [done]
  exact rest

theorem endsFailed {x : Except ε α} {fault : ε} {f : α → Except ε β} {after : β → Prop}
    (failed : x = .error fault) (blamed : blame fault) : Ends after blame (x >>= f) := by
  rw [failed]
  exact blamed

theorem endsMap {x : Except ε α} {f : α → β} {after : β → Prop} (first : Ends holds blame x)
    (rest : ∀ a, holds a → after (f a)) : Ends after blame (x.map f) := by
  cases x with
  | error fault => exact first
  | ok a => exact rest a first

theorem endsMapM {f : α → Except ε β} {as : List α} {after : β → Prop}
    (each : ∀ a ∈ as, Ends after blame (f a)) : Ends (fun bs => ∀ b ∈ bs, after b) blame (as.mapM f) := by
  induction as with
  | nil => exact fun _ absurd => nomatch absurd
  | cons a as ih =>
    obtain ⟨first, rest⟩ := List.forall_mem_cons.mp each
    rw [List.mapM_cons]
    exact endsBind first fun b here => endsBind (ih rest) fun bs there => List.forall_mem_cons.mpr ⟨here, there⟩

theorem endsMono {x : Except ε α} {holds' : α → Prop} {blame' : ε → Prop} (ends : Ends holds blame x)
    (results : ∀ a, holds a → holds' a) (faults : ∀ fault, blame fault → blame' fault) :
    Ends holds' blame' x := by
  cases x with
  | error fault => exact faults fault ends
  | ok a => exact results a ends

theorem endsBlamed {x : Except ε α} {blame' : ε → Prop} (ends : Ends holds blame x)
    (faults : ∀ fault, blame fault → blame' fault) : Ends holds blame' x :=
  endsMono ends (fun _ done => done) faults

end WordAbi.Outcome
