import LazyApl.Primitive.Chance
import LazyApl.Primitive.Join
import LazyApl.Proofs.Outcome
/-!
# What a computation asks for

A computation that needs the content of a random array fails with what has to be drawn, as long as
that has not been drawn. No other failure asks for anything, so whatever is computed of numbers,
extents and positions alone asks for nothing, and a computation in several steps asks for no more
than its steps do. Once more has been drawn the same computation may get further; what it gave
before, it gives again.
-/
namespace LazyApl

/-- Which contents may be asked for: by the label of a random array, its source and what is to be
drawn for it. -/
abbrev Requests := Label → SourceRef → Draw → Prop

namespace Outcome

variable {α β : Type} {A B : Requests} {x : Except Fault α} {f : α → Except Fault β}

/-- If an outcome is a failure for want of a content, that content may be asked for. -/
structure AsksOnly (A : Requests) (x : Except Fault α) : Prop where
  requests : ∀ label source draw, x = .error (.undrawn label source draw) → A label source draw

/-- An outcome that wants no content: a result, or a failure for another reason. -/
abbrev IsKnown (x : Except Fault α) : Prop := AsksOnly (fun _ _ _ => False) x

@[simp] theorem asksOnly_ok (a : α) : AsksOnly A (.ok a : Except Fault α) := ⟨nofun⟩

@[simp] theorem asksOnly_pure (a : α) : AsksOnly A (pure a : Except Fault α) := ⟨nofun⟩

@[simp] theorem asksOnly_error {e : Fault} : AsksOnly A (.error e : Except Fault α) ↔
    ∀ label source draw, e = .undrawn label source draw → A label source draw := by
  constructor
  · intro h label source draw he
    exact h.requests label source draw (congrArg Except.error he)
  · intro h
    exact ⟨fun label source draw he => h label source draw (Except.error.inj he)⟩

theorem isKnown_or (x : Except Fault α) :
    IsKnown x ∨ ∃ label source draw, x = .error (.undrawn label source draw) := by
  cases x with
  | ok a => exact .inl (asksOnly_ok a)
  | error e =>
      cases e with
      | undrawn label source draw => exact .inr ⟨label, source, draw, rfl⟩
      | _ => exact .inl (asksOnly_error.mpr fun _ _ _ he => by cases he)

theorem AsksOnly.mono (h : AsksOnly A x) (hA : ∀ label source draw, A label source draw →
    B label source draw) : AsksOnly B x :=
  ⟨fun label source draw hx => hA label source draw (h.requests label source draw hx)⟩

theorem AsksOnly.bind (hx : AsksOnly A x) (hf : ∀ a, x = .ok a → AsksOnly A (f a)) :
    AsksOnly A (x >>= f) := by
  cases x with
  | error e => exact ⟨fun label source draw he => hx.requests label source draw (by cases he; rfl)⟩
  | ok a => exact hf a rfl

theorem AsksOnly.of_bind (h : AsksOnly A (x >>= f)) : AsksOnly A x := by
  cases x with
  | error e => exact ⟨fun label source draw he => h.requests label source draw (by cases he; rfl)⟩
  | ok a => exact asksOnly_ok a

@[simp] theorem asksOnly_bind (hx : AsksOnly A x) (hf : ∀ a, AsksOnly A (f a)) :
    AsksOnly A (x >>= f) :=
  hx.bind fun a _ => hf a

@[simp] theorem asksOnly_map {g : α → β} : AsksOnly A (g <$> x) ↔ AsksOnly A x := by
  cases x with
  | error e => simp [Functor.map, Except.map]
  | ok a => simp [Functor.map, Except.map]

theorem AsksOnly.mapM {g : α → Except Fault β} {xs : List α}
    (h : ∀ a ∈ xs, AsksOnly A (g a)) : AsksOnly A (xs.mapM g) := by
  induction xs with
  | nil => simp
  | cons a xs ih =>
      rw [List.mapM_cons]
      have hrest := ih fun b hb => h b (List.mem_cons_of_mem a hb)
      simp [h a List.mem_cons_self, hrest]

/-- A computation before and after more has been drawn: if it has wanted no content then it gives
what it gave, up to a relation. -/
inductive Keeps (R : α → β → Prop) : Except Fault α → Except Fault β → Prop
  | ok {a : α} {b : β} (h : R a b) : Keeps R (.ok a) (.ok b)
  | error (e : Fault) : Keeps R (.error e) (.error e)
  | undrawn (label : Label) (source : SourceRef) (draw : Draw) (y : Except Fault β) :
      Keeps R (.error (.undrawn label source draw)) y

theorem Keeps.refl (x : Except Fault α) : Keeps Eq x x := by
  cases x with
  | error e => exact .error e
  | ok a => exact .ok rfl

theorem keeps_eq_iff {x y : Except Fault α} : Keeps Eq x y ↔ (IsKnown x → y = x) := by
  constructor
  · intro h hx
    cases h with
    | ok h => rw [h]
    | error e => rfl
    | undrawn label source draw y => exact (hx.requests label source draw rfl).elim
  · intro h
    rcases isKnown_or x with hx | ⟨label, source, draw, rfl⟩
    · rw [h hx]
      exact .refl x
    · exact .undrawn label source draw y

variable {γ δ : Type} {R : α → β → Prop} {S : γ → δ → Prop}

theorem Keeps.bind {x : Except Fault α} {y : Except Fault β} {f : α → Except Fault γ}
    {g : β → Except Fault δ} (h : Keeps R x y)
    (hf : ∀ a b, x = .ok a → y = .ok b → R a b → Keeps S (f a) (g b)) :
    Keeps S (x >>= f) (y >>= g) := by
  cases h with
  | ok h => exact hf _ _ rfl rfl h
  | error e => exact .error e
  | undrawn label source draw y => exact .undrawn label source draw _

theorem Keeps.imp {T : α → β → Prop} {x : Except Fault α} {y : Except Fault β} (h : Keeps R x y)
    (hT : ∀ a b, x = .ok a → y = .ok b → R a b → T a b) : Keeps T x y := by
  cases h with
  | ok h => exact .ok (hT _ _ rfl rfl h)
  | error e => exact .error e
  | undrawn label source draw y => exact .undrawn label source draw _

theorem Keeps.bind_eq {x y : Except Fault α} {f : α → Except Fault γ} {g : α → Except Fault δ}
    (h : Keeps Eq x y) (hf : ∀ a, Keeps S (f a) (g a)) : Keeps S (x >>= f) (y >>= g) := by
  apply h.bind
  rintro a _ _ _ rfl
  exact hf a

theorem Keeps.map {x : Except Fault α} {y : Except Fault β} {f : α → γ} {g : β → δ}
    (h : Keeps R x y) (hf : ∀ a b, R a b → S (f a) (g b)) : Keeps S (f <$> x) (g <$> y) := by
  cases h with
  | ok h => exact .ok (hf _ _ h)
  | error e => exact .error e
  | undrawn label source draw y => exact .undrawn label source draw _

theorem Keeps.mapM {xs : List α} {ys : List β} {f : α → Except Fault γ} {g : β → Except Fault δ}
    (h : List.Forall₂ (fun a b => Keeps S (f a) (g b)) xs ys) :
    Keeps (List.Forall₂ S) (xs.mapM f) (ys.mapM g) := by
  induction h with
  | nil => exact .ok .nil
  | cons h _ ih =>
      rw [List.mapM_cons, List.mapM_cons]
      apply h.bind
      intro c d _ _ hcd
      apply ih.bind
      intro cs ds _ _ hrest
      exact .ok (.cons hcd hrest)

theorem Keeps.mapM_eq {xs : List α} {ys : List β} {f : α → Except Fault γ} {g : β → Except Fault γ}
    (h : List.Forall₂ (fun a b => Keeps Eq (f a) (g b)) xs ys) :
    Keeps Eq (xs.mapM f) (ys.mapM g) := by
  have hall := Keeps.mapM h
  rwa [List.forall₂_eq_eq_eq] at hall

end Outcome

open Outcome

namespace Number

variable {A : Requests} (a b : Number)

@[simp] theorem asksOnly_double (n : Int) : AsksOnly A (double n) := by
  unfold double
  split <;> simp

@[simp] theorem asksOnly_pair : AsksOnly A (a.pair b) := by
  cases a <;> cases b <;> simp [pair]

@[simp] theorem asksOnly_lt : AsksOnly A (a.lt b) := by
  cases a <;> cases b <;> simp [lt]

@[simp] theorem asksOnly_le : AsksOnly A (a.le b) := by
  unfold le
  apply asksOnly_bind (asksOnly_lt a b)
  intro c
  cases c <;> simp

@[simp] theorem asksOnly_index : AsksOnly A a.index := by
  cases a <;> simp [index]

@[simp] theorem asksOnly_add : AsksOnly A (a.add b) := by
  apply asksOnly_bind (asksOnly_pair a b)
  intro p
  cases p <;> simp

@[simp] theorem asksOnly_sub : AsksOnly A (a.sub b) := by
  apply asksOnly_bind (asksOnly_pair a b)
  intro p
  cases p <;> simp

@[simp] theorem asksOnly_mul : AsksOnly A (a.mul b) := by
  apply asksOnly_bind (asksOnly_pair a b)
  intro p
  cases p <;> simp

@[simp] theorem asksOnly_mod : AsksOnly A (a.mod b) := by
  unfold mod
  split
  · simp
  · simp
  · apply asksOnly_bind (asksOnly_pair a b)
    intro p
    cases p <;> dsimp only <;> (try split) <;> simp

@[simp] theorem asksOnly_floorDiv : AsksOnly A (a.floorDiv b) := by
  unfold floorDiv
  split
  · simp
  · simp
  · apply asksOnly_bind (asksOnly_pair a b)
    intro p
    cases p <;> dsimp only <;> (try split) <;> simp

@[simp] theorem asksOnly_wholeBelow (x : Float) : AsksOnly A (wholeBelow x) := by
  unfold wholeBelow
  split
  · simp
  · split <;> simp

@[simp] theorem asksOnly_product (xs : List Number) : AsksOnly A (product a xs) := by
  induction xs generalizing a with
  | nil => simp [product]
  | cons x xs ih => simp [product, ih]

@[simp] theorem asksOnly_weigh (xs fs : List Number) : AsksOnly A (weigh a xs fs) := by
  induction xs generalizing a fs with
  | nil => simp [weigh]
  | cons x xs ih => cases fs <;> simp [weigh, ih]

end Number

namespace Scalar

variable {A : Requests}

@[simp] theorem asksOnly_number (s : Scalar) : AsksOnly A s.number := by
  unfold number
  split <;> simp

@[simp] theorem asksOnly_count (origin : Origin) (i : Number) : AsksOnly A (count origin i) := by
  simp [count]

@[simp] theorem asksOnly_strip (origin : Origin) (n : Int) : AsksOnly A (strip origin n) := by
  simp [strip]

end Scalar

section Positions

variable {A : Requests} {α : Type}

@[simp] theorem asksOnly_pickAt (xs : List α) (i : Int) : AsksOnly A (pickAt xs i) := by
  unfold pickAt
  split <;> simp

@[simp] theorem asksOnly_pickBy (xs : List α) (i : Number) : AsksOnly A (pickBy xs i) := by
  simp [pickBy]

@[simp] theorem asksOnly_pickFrom (xs : Array α) (i : Number) : AsksOnly A (pickFrom xs i) := by
  apply asksOnly_bind (Number.asksOnly_index i)
  intro n
  split
  · simp
  · split <;> simp

@[simp] theorem AxisArgument.asksOnly_located (a : AxisArgument) (rank : Int) (origin : Origin) :
    AsksOnly A (a.located rank origin) := by
  cases a with
  | other x => simp [located]
  | whole n =>
      have hamong : ∀ o, AsksOnly A (isAmong n rank o) := by
        intro o
        apply asksOnly_bind (Number.asksOnly_le _ _)
        intro b
        cases b <;> simp
      apply asksOnly_bind (Scalar.asksOnly_number origin)
      intro o
      apply asksOnly_bind (hamong o)
      intro b
      cases b <;> simp

end Positions

namespace Extents

variable {A : Requests} (s : Extents)

@[simp] theorem asksOnly_shape : AsksOnly A s.shape := by
  unfold shape
  split <;> simp

@[simp] theorem asksOnly_size : AsksOnly A s.size := by
  unfold size
  split <;> simp

@[simp] theorem asksOnly_count : AsksOnly A s.count := by
  simp [count]

theorem asksOnly_sizeAndStrides : AsksOnly A s.sizeAndStrides := by
  induction s with
  | nil => simp [sizeAndStrides]
  | cons n s ih => simp [sizeAndStrides, ih]

@[simp] theorem asksOnly_strides : AsksOnly A s.strides := by
  unfold strides
  split
  · simp
  · simp [asksOnly_sizeAndStrides]

theorem asksOnly_split (i : Number) : AsksOnly A (s.split i) := by
  induction s with
  | nil => simp [split]
  | cons n s ih =>
      apply asksOnly_bind ih
      intro p
      dsimp only
      split <;> simp

@[simp] theorem asksOnly_coordinates (i : Number) : AsksOnly A (s.coordinates i) := by
  unfold coordinates
  split
  · simp
  · simp [asksOnly_split]

@[simp] theorem asksOnly_dot (c factors : List Number) : AsksOnly A (dot c factors) := by
  unfold dot
  split <;> simp

end Extents

namespace EType

variable {A : Requests}

@[simp] theorem asksOnly_counted (origin : Origin) (last : Number) :
    AsksOnly A (counted origin last) := by
  have hbetween : ∀ low high, AsksOnly A (between low high) := by
    intro low high
    simp only [between]
    apply asksOnly_bind (Scalar.asksOnly_number low)
    intro x
    apply asksOnly_bind (Number.asksOnly_le _ _)
    intro b
    cases b <;> simp
  simp [counted, hbetween]

end EType

namespace Join

variable {A : Requests} (origin : Origin)

@[simp] theorem asksOnly_isBetween (axis : Option Item) : AsksOnly A (isBetween axis) := by
  unfold isBetween
  split
  · simp
  · split <;> simp
  · apply asksOnly_bind (Scalar.asksOnly_number _)
    intro x
    cases x <;> simp
  · simp

@[simp] theorem asksOnly_along (axis : Item) : AsksOnly A (along axis) := by
  unfold along
  split
  · split <;> simp
  · apply asksOnly_bind (Scalar.asksOnly_number _)
    intro x
    cases x <;> simp
  · simp

@[simp] theorem asksOnly_place (axis : Item) : AsksOnly A (place axis origin) := by
  unfold place
  split
  · apply asksOnly_bind (Scalar.asksOnly_number _)
    intro x
    apply asksOnly_bind (Scalar.asksOnly_number _)
    intro o
    apply asksOnly_bind (Number.asksOnly_sub x o)
    intro y
    cases y <;> simp
  · simp

@[simp] theorem asksOnly_stacked (shapes : List Extents) (axis : Item) :
    AsksOnly A (stacked shapes axis origin) := by
  simp only [stacked]
  apply asksOnly_bind (asksOnly_place origin axis)
  intro pos
  split
  · simp
  · split <;> simp

@[simp] theorem asksOnly_extended (reference : Extents) (axis : Int) (s : Extents) :
    AsksOnly A (extended reference axis s) := by
  unfold extended
  split_ifs <;> simp

@[simp] theorem asksOnly_extents (shapes : List Extents) (reference : Extents) (axis : Int)
    (rest : List Extents) : AsksOnly A (extents shapes reference axis rest) := by
  induction rest with
  | nil => simp [extents]
  | cons s rest ih =>
      apply asksOnly_bind (asksOnly_extended reference axis s)
      intro full
      dsimp only
      split
      · simp [ih]
      · simp

@[simp] theorem asksOnly_totals (start : Number) (ns : List Number) :
    AsksOnly A (totals start ns) := by
  induction ns generalizing start with
  | nil => simp [totals]
  | cons n ns ih => simp [totals, ih]

theorem asksOnly_broken {α : Type} (shapes : List Extents) (rank : Nat) :
    AsksOnly A (.error (broken shapes rank) : Except Fault α) := by
  simp only [broken]
  split <;> simp

@[simp] theorem asksOnly_aligned (shapes : List Extents) (axis : Option Item) (first : Bool) :
    AsksOnly A (aligned shapes axis first origin) := by
  simp only [aligned]
  cases axis with
  | none => simp
  | some a =>
      apply asksOnly_bind (asksOnly_along a)
      intro n
      apply asksOnly_bind (AxisArgument.asksOnly_located _ _ origin)
      intro x
      cases x with
      | int axis => simp
      | _ => exact asksOnly_broken shapes _

@[simp] theorem asksOnly_layout (shapes : List Extents) (axis : Option Item) (first : Bool) :
    AsksOnly A (layout shapes axis first origin) := by
  apply asksOnly_bind (asksOnly_isBetween axis)
  intro between
  split <;> simp

@[simp] theorem asksOnly_operandAt (offsets : List Number) (x : Number) :
    AsksOnly A (operandAt offsets x) := by
  have hbefore : ∀ n low high, high - low ≤ n →
      AsksOnly A (placesBefore offsets.toArray x low high) := by
    intro n
    induction n with
    | zero =>
        intro low high h
        rw [placesBefore, if_neg (by omega)]
        simp
    | succ n ih =>
        intro low high h
        rw [placesBefore]
        split
        · apply asksOnly_bind (Number.asksOnly_lt _ _)
          intro b
          cases b with
          | true => exact ih _ _ (by omega)
          | false => exact ih _ _ (by omega)
        · simp
  simp [operandAt, hbefore _ _ _ le_rfl]

@[simp] theorem asksOnly_locate (j : Joint) (between : Bool) (shapes : List Extents)
    (i : Number) : AsksOnly A (locate j between shapes i) := by
  apply asksOnly_bind (Extents.asksOnly_coordinates _ i)
  intro c
  apply asksOnly_bind (asksOnly_pickAt c _)
  intro x
  split
  · simp
  · apply asksOnly_bind (asksOnly_operandAt _ x)
    intro which
    simp

theorem asksOnly_cells {j : Joint} {between : Bool} {shapes : List Extents}
    {gens : List (Gen Item)} (h : ∀ g ∈ gens, ∀ i, AsksOnly A (g.cell i)) (i : Number) :
    AsksOnly A ((cells j between shapes gens).cell i) := by
  apply asksOnly_bind (asksOnly_locate j between shapes i)
  intro p
  apply AsksOnly.bind (asksOnly_pickBy gens p.1)
  intro g hg
  have hg := h g (pickBy_mem hg)
  cases g with
  | single x => simp
  | indexed f =>
      apply asksOnly_bind (asksOnly_pickBy shapes p.1)
      intro s
      split
      · exact hg 0
      · apply asksOnly_bind (Extents.asksOnly_strides s)
        intro fs
        exact asksOnly_bind (Extents.asksOnly_dot p.2 fs) hg

end Join

namespace Room

@[simp] theorem asksOnly_times {A : Requests} (room : Room) (size : Nat) (n : Int) :
    AsksOnly A (room.times size n) := by
  unfold times
  split_ifs <;> simp

end Room
end LazyApl
