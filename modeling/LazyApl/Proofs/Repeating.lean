import LazyApl.Primitive.Order
import LazyApl.Primitive.Radix
import LazyApl.Primitive.Where
import LazyApl.Proofs.Questions
/-!
# Answers given again

An array is made anew each time something has been drawn, and answers again what it has answered. An
operation that makes its array as a whole asks its operands for their shapes, their element types,
and their items or what they render to; as far as these are answered again, so is everything that is
asked of the result. It does not matter in what form the operands hand out their cells.
-/
namespace LazyApl

open Outcome

namespace View

/-- An array before and after more has been drawn, as far as its rendered items go. -/
structure Repeats (v w : View Item) : Prop where
  shape : Keeps Eq v.shape w.shape
  etype : Keeps Eq v.etype w.etype
  items : Keeps Eq (Item.view v).items (Item.view w).items
  render : Keeps Eq (Item.view v).render (Item.view w).render

variable {v w : View Item}

theorem Repeats.refl (v : View Item) : v.Repeats v := ⟨.refl _, .refl _, .refl _, .refl _⟩

theorem KeptAs.repeats (h : v.KeptAs w) (hv : v.IsComputed) (hw : w.IsComputed) : v.Repeats w :=
  ⟨h.shape, h.etype, h.items, h.render hv hw⟩

theorem Repeats.rank (h : v.Repeats w) : Keeps Eq v.rank w.rank :=
  h.shape.bind_eq fun _ => .refl _

theorem Repeats.size (h : v.Repeats w) : Keeps Eq v.size w.size :=
  h.shape.bind_eq fun _ => .refl _

theorem keptAs_whole {name : String} {content content' : Lazy (List Item)}
    {shape shape' : Lazy Extents} {etype etype' : Lazy EType} {prototype prototype' : Lazy Item}
    {details details' : List (String × Lazy Item)} (hc : Keeps Eq content.get content'.get)
    (hs : Keeps Eq shape.get shape'.get) (he : Keeps Eq etype.get etype'.get)
    (hp : Keeps Eq prototype.get prototype'.get) :
    (whole name content shape etype prototype details).KeptAs
      (whole name content' shape' etype' prototype' details') :=
  ⟨hs, he, hp, hc.bind_eq fun _ => .refl _⟩

end View

namespace Item

/-- An item before and after more has been drawn, as the operand of an operation. -/
structure Repeats (x y : Item) : Prop where
  lift : x.lift.Repeats y.lift
  based : x.based.Repeats y.based

variable {x y x' y' : Item} {ct : Tolerance} {origin : Origin}

theorem Repeats.refl (x : Item) : x.Repeats x := ⟨.refl _, .refl _⟩

theorem repeats_view {v w : View Item} (h : v.Repeats w) : (view v).Repeats (view w) := ⟨h, h⟩

theorem keeps_members {v w : View Item} (h : v.Repeats w) (role : String) :
    Keeps Eq ((view v).members role) ((view w).members role) := by
  apply h.rank.bind_eq
  intro n
  split
  · exact .refl _
  · exact h.items

theorem keeps_numbers {v w : View Item} (h : v.Repeats w) :
    Keeps Eq (view v).numbers (view w).numbers :=
  h.items.bind_eq fun _ => .refl _

theorem keeps_flatShape {a b r a' b' r' : View Item} (ha : a.Repeats a') (hb : b.Repeats b')
    (hr : r.Repeats r') (refusal : RankCause) :
    Keeps Eq (flatShape a b r refusal).get (flatShape a' b' r' refusal).get := by
  apply ha.rank.bind_eq
  intro m
  split
  · exact .refl _
  apply hb.rank.bind_eq
  intro n
  split
  · exact .refl _
  · exact hr.shape

/-- The positions that an array lists, which have to be of one kind. -/
def listedPositions (v : View Item) (origin : Origin) : Except Fault (List (List Number)) := do
  let found ← (← (view v).members "argument").mapM (position origin)
  if (found.map List.length).eraseDups.length > 1 then .error (.rank .mixedCoordinates)
  else return found

def majorCount (v : View Item) : Except Fault Number := do
  match ← v.shape with
  | [] => .error (.rank .gradeOfScalar)
  | n :: _ => return n

variable [Platform]

theorem Repeats.membership (hx : x.Repeats x') (hy : y.Repeats y') (ct : Tolerance) :
    (x.membership y ct).KeptAs (x'.membership y' ct) := by
  refine View.keptAs_whole ?_ (keeps_flatShape hx.lift hy.lift hx.lift _) (.refl _) (.refl _)
  apply (keeps_members hy.lift _).bind_eq
  intro values
  exact (keeps_members hx.lift _).bind_eq fun _ => .refl _

theorem Repeats.occurrencesOf (hx : x.Repeats x') (hy : y.Repeats y') (ct : Tolerance) :
    (x.occurrencesOf y ct).KeptAs (x'.occurrencesOf y' ct) := by
  refine View.keptAs_whole ?_ (keeps_flatShape hx.lift hy.lift hy.lift _) (.refl _) (.refl _)
  apply (keeps_members hx.lift _).bind_eq
  intro pattern
  exact (keeps_members hy.lift _).bind_eq fun _ => .refl _

theorem Repeats.indexOf (hx : x.Repeats x') (hy : y.Repeats y') (origin : Origin)
    (ct : Tolerance) : (x.indexOf y origin ct).KeptAs (x'.indexOf y' origin ct) := by
  refine View.keptAs_whole ?_ ?_ ?_ (.refl _)
  · apply (keeps_members hx.lift _).bind_eq
    intro values
    exact hy.lift.items.bind_eq fun _ => .refl _
  · apply hx.lift.rank.bind_eq
    intro n
    split
    · exact .refl _
    · exact hy.lift.shape
  · exact hx.lift.size.bind_eq fun _ => .refl _

theorem Repeats.encode (hx : x.Repeats x') (hy : y.Repeats y') :
    (x.encode y).KeptAs (x'.encode y') := by
  refine View.keptAs_whole ?_ ?_ ?_ (.refl _)
  · apply (keeps_numbers hx.lift).bind_eq
    intro rs
    apply (Keeps.refl _).bind_eq
    intro bad
    split
    · exact .refl _
    apply (keeps_numbers hy.lift).bind_eq
    intro vs
    apply hx.lift.shape.bind_eq
    intro a
    apply (Keeps.refl _).bind_eq
    intro s
    exact hy.lift.shape.bind_eq fun _ => .refl _
  · apply hx.lift.shape.bind_eq
    intro a
    exact hy.lift.shape.bind_eq fun _ => .refl _
  · apply hx.lift.etype.bind_eq
    intro a
    exact hy.lift.etype.bind_eq fun _ => .refl _

theorem keeps_packed {v w : View Item} (h : v.Repeats w) (refusal : DomainCause) :
    Keeps Eq ((view v).packed refusal) ((view w).packed refusal) := by
  have hitems := h.items
  unfold packed
  generalize (view v).items = xs at hitems ⊢
  generalize (view w).items = ys at hitems ⊢
  cases hitems with
  | ok h =>
      subst h
      exact .refl _
  | error e => exact .refl _
  | undrawn label source draw y => exact .undrawn label source draw _

theorem Repeats.whereOnes (hx : x.Repeats x') (origin : Origin) :
    (x.whereOnes origin).KeptAs (x'.whereOnes origin) := by
  have hbits := keeps_packed hx.lift .notBooleanArray
  refine View.keptAs_whole ?_ (hbits.bind_eq fun _ => .refl _) ?_ ?_
  · apply hbits.bind_eq
    intro bits
    apply (Keeps.refl (onesIn bits)).bind_eq
    intro ones
    exact hx.based.shape.bind_eq fun _ => .refl _
  · apply hx.based.rank.bind_eq
    intro n
    split
    · exact .refl _
    · exact hx.based.size.bind_eq fun _ => .refl _
  · exact hx.based.shape.bind_eq fun _ => .refl _

theorem Repeats.inverseWhere (hx : x.Repeats x') (origin : Origin) :
    (x.inverseWhere origin).KeptAs (x'.inverseWhere origin) := by
  have hpositions : Keeps Eq (listedPositions x.lift origin) (listedPositions x'.lift origin) :=
    (keeps_members hx.lift _).bind_eq fun _ => .refl _
  have hshape : Keeps Eq (listedPositions x.lift origin >>= Where.cover)
      (listedPositions x'.lift origin >>= Where.cover) := hpositions.bind_eq fun _ => .refl _
  refine View.keptAs_whole ?_ hshape (hpositions.bind_eq fun _ => .refl _) (.refl _)
  apply hshape.bind_eq
  intro e
  apply (Keeps.refl _).bind_eq
  intro t
  apply (Keeps.refl _).bind_eq
  intro room
  exact hpositions.bind_eq fun _ => .refl _

theorem Repeats.grade (hx : x.Repeats x') {key key' : Option Item}
    (hkey : Option.Rel Repeats key key') (isDown : Bool) (origin : Origin) :
    (x.grade key isDown origin).KeptAs (x'.grade key' isDown origin) := by
  have hcount : Keeps Eq (majorCount x.based) (majorCount x'.based) :=
    hx.based.shape.bind_eq fun _ => .refl _
  refine View.keptAs_whole ?_ (hcount.bind_eq fun _ => .refl _) (hcount.bind_eq fun _ => .refl _)
    (.refl _)
  apply hcount.bind_eq
  intro extent
  refine Keeps.bind_eq ?_ fun _ => .refl _
  cases hkey with
  | none => exact hx.based.items
  | some hkey =>
      apply hx.based.etype.bind_eq
      intro t
      apply hx.based.size.bind_eq
      intro n
      split
      · exact .refl _
      apply hkey.lift.render.bind_eq
      intro y
      cases y with
      | array g =>
          exact ((Repeats.refl (list g.items)).indexOf (repeats_view hx.based) _ _).items
      | _ => exact .refl _

end Item
end LazyApl
