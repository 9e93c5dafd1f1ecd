import LazyApl.Primitive.Restructure
/-!
# Counting and measuring

The first whole numbers or all coordinates of a shape, and the shape, the number of major cells and
the depth of nesting of an array.
-/

namespace LazyApl
namespace Item

/-- A cell as an extent: a whole number that is not negative. -/
def extent : Item → Except Fault Int
  | scalar (.int n) => if n < 0 then .error (.domain .notCounts) else .ok n
  | _ => .error (.domain .notCounts)

/-- The whole numbers from the origin on, or all coordinates when extents are given as a vector. -/
def iota (base : Item) (origin : Origin) : Except Fault (View Item) := do
  let v := base.based
  let rank ← v.rank
  if 1 < rank then .error (.rank .countArgument)
  else
    let cells : Lazy (Gen Item) := Lazy.keep fun _ => v.generator
    let members ← (upTo (← v.count)).mapM fun (i : Int) => do (← cells.get).cell i
    let dims ← members.mapM extent
    let form : Form Item := ⟨"Iota",
      [("base", Lazy.pure (view v)), ("io", Lazy.pure (scalar origin)),
        ("dims", Lazy.pure (ints dims)), ("vectors", Lazy.pure (truth (rank = 1)))], false, none⟩
    if rank = 1 then
      return View.computed
        { shape := Lazy.pure (.ofShape dims)
          etype := Lazy.pure EType.mixed
          prototype := fun _ => .ok (array (Grid.ofInts (dims.map fun _ => 0)))
          generator := fun _ => .ok <| .indexed fun i => do
            let c ← (← (Extents.ofShape dims).coordinates i).mapM origin.count
            return array (Grid.ofList (c.map scalar))
          form := form }
    else
      let n := dims.headD 0
      return View.computed
        { shape := Lazy.pure (.ofShape dims)
          etype := .delay fun _ => EType.counted origin (.int (max (n - 1) 0))
          prototype := fun _ => .ok (int 0)
          generator := fun _ => .ok <| .indexed fun i => do return scalar (← origin.count i)
          form := form }

/-- The shape, as a vector. -/
def shapeVector (base : Item) : View Item :=
  let v := base.based
  View.computed
    { shape := .delay fun _ => do return [.int (← v.rank)]
      etype := .delay fun _ => do
        let top ← match ← v.shape with
          | [] => pure 0
          | n :: rest => n.greatest rest
        EType.between (.int 0) top.scalar
      prototype := fun _ => .ok (int 0)
      generator := fun _ => do
        let s ← v.shape
        return .indexed fun i => ofNumber <$> pickBy s i
      form := ⟨"ShapeOf", [("base", Lazy.pure v.shown)], false, none⟩ }

/-- The number of major cells; a scalar has one. -/
def tally (base : Item) : View Item :=
  let v := base.based
  let count : Lazy Number := .delay fun _ => do return (← v.shape).headD 1
  View.computed
    { shape := Lazy.pure []
      etype := .delay fun _ => do
        let n ← count.get
        EType.between n.scalar n.scalar
      prototype := fun _ => .ok (int 0)
      generator := fun _ => do return .single (ofNumber (← count.get))
      form := ⟨"Tally",
        [("base", Lazy.pure v.shown), ("count", .delay fun _ => do return ofNumber (← count.get))],
        false, none⟩ }

def depthOf (base : Item) : View Item :=
  View.computed
    { shape := Lazy.pure []
      etype := Lazy.pure EType.unbounded
      prototype := fun _ => .ok (int 0)
      generator := fun _ => do return .single (int (← (view base.lift).render).depth)
      form := ⟨"Depth", [("base", Lazy.pure (view base.lift))], false, none⟩ }

end Item
end LazyApl
