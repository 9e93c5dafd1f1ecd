import LazyApl.Nesting
import LazyApl.Primitive.Amend
/-!
# Scalar functions

A function of simple values is applied cell by cell to operands of one shape, where an operand of a
single cell goes with every cell of the others. Where some operand has an array in a cell, the
function pervades that array: the result has there an array of its own, made from the cells of all
operands.
-/

namespace LazyApl

/-- How the element type of a scalar function is found: numbers of the widest kind, a type known
beforehand, or a rule on the types of the operands. -/
inductive ResultType
  | numeric
  | fixed (t : EType)
  | rule (f : List EType → EType)

namespace ResultType

def widest (types : List EType) : EType :=
  if types.any (·.kind = .complex) then EType.complex
  else if types.any (·.kind = .float) then EType.float
  else EType.unbounded

/-- The element type of the result from those of the operands. -/
def apply (r : ResultType) (types : Except Fault (List EType)) : Except Fault EType := do
  match r with
  | fixed t => return t
  | _ =>
    let types ← types
    if types.any (·.kind = .mixed) then return EType.mixed
    else
      match r with
      | rule f => return f types
      | _ =>
        if types.all EType.isNumeric then return widest types
        else .error (.domain .notNumbers)

end ResultType

namespace Pervade

def longest : Extents → List Extents → Extents
  | s, [] => s
  | s, t :: rest => longest (if s.length < t.length then t else s) rest

def isSingle (s : Extents) : Except Fault Bool := do return (← s.size).isOne

def plural : List Extents → Except Fault (List Extents)
  | [] => .ok []
  | s :: rest => do
    let single ← isSingle s
    let rest ← plural rest
    return if single then rest else s :: rest

/-- The common shape: that of the operands with more or fewer cells than one, which must all be
equal, or the longest shape of single cells. -/
def commonShape (shapes : List Extents) : Except Fault Extents := do
  match ← plural shapes, shapes with
  | [], [] => .error .badValue
  | [], s :: rest => return longest s rest
  | s :: rest, _ =>
    match rest.find? fun t => !t.eq s with
    | none => return s
    | some t =>
      if t.length = s.length then .error (.length .operandShapes [s, t])
      else .error (.rank .operandRanks)

/-- The cells of each operand, and whether there is only one. -/
def generators : List (View Item) → Except Fault (List (Gen Item × Bool))
  | [] => .ok []
  | v :: vs => do
    let cells ← v.generator
    let count ← v.size
    let rest ← generators vs
    return (cells, count.isOne) :: rest

def argumentsAt (i : Number) : List (Gen Item × Bool) → Except Fault (List Item)
  | [] => .ok []
  | (cells, isOne) :: rest => do
    let x ← cells.cell (if isOne then 0 else i)
    let xs ← argumentsAt i rest
    return x :: xs

def anyArray : List Item → Except Fault Bool
  | [] => .ok false
  | x :: xs => do if ← x.isArray then return true else anyArray xs

theorem lift_isLeaf {s : Scalar} (h : (Item.scalar s).stored = .scalar s) :
    (Item.scalar s).lift.IsLeaf := by
  cases s with
  | text u =>
    by_cases hu : u.length = 1
    · exact Item.isLeaf_lift_char hu
    · simp [Item.stored, hu, Item.characters] at h
  | _ => exact Item.isLeaf_lift_number rfl

theorem cell_of_isLeaf {v : View Item} (hv : v.IsLeaf) {cells : Gen Item} {i : Number} {x : Item}
    (hc : v.generator = .ok cells) (hx : cells.cell i = .ok x) :
    x.lift.IsLeaf ∧ x.isArray = .ok false := by
  obtain ⟨s, rfl, hs⟩ := hv
  simp only [View.generator, View.facts, Tower.facts_nil, Root.facts, Grid.facts, Grid.generator,
    Except.ok.injEq] at hc
  subst hc
  simp only [Gen.cell_single, Except.ok.injEq] at hx
  subst hx
  exact ⟨lift_isLeaf hs, by simp [Item.isArray]⟩

/-- Arguments are on the way down from the operands. -/
theorem descent_argumentsAt {i : Number} : ∀ {operands : List (View Item)}
    {gens : List (Gen Item × Bool)} {args : List Item}, generators operands = .ok gens →
    argumentsAt i gens = .ok args → View.Descent (args.map Item.lift) operands := by
  intro operands
  induction operands with
  | nil =>
    intro gens args hg ha
    simp only [generators, Except.ok.injEq] at hg
    subst hg
    simp only [argumentsAt, Except.ok.injEq] at ha
    subst ha
    exact .nil
  | cons v vs ih =>
    intro gens args hg ha
    simp only [generators, bind, Except.bind, pure, Except.pure] at hg
    repeat' split at hg
    all_goals simp only [reduceCtorEq, Except.ok.injEq] at hg
    rename_i cells hc _ n _ _ rest hr
    subst hg
    simp only [argumentsAt, bind, Except.bind, pure, Except.pure] at ha
    repeat' split at ha
    all_goals simp only [reduceCtorEq, Except.ok.injEq] at ha
    rename_i x hx _ xs hxs
    subst ha
    refine .cons ?_ (ih hr hxs)
    by_cases hv : v.IsLeaf
    · exact .inl ⟨(cell_of_isLeaf hv hc hx).1, hv⟩
    · exact .inr ⟨hv, cells, _, x, hc, hx, rfl⟩

/-- Where an argument is an array, its operand is no simple scalar. -/
theorem exists_not_isLeaf {i : Number} : ∀ {operands : List (View Item)}
    {gens : List (Gen Item × Bool)} {args : List Item}, generators operands = .ok gens →
    argumentsAt i gens = .ok args → anyArray args = .ok true → ∃ v ∈ operands, ¬ v.IsLeaf := by
  intro operands
  induction operands with
  | nil =>
    intro gens args hg ha h
    simp only [generators, Except.ok.injEq] at hg
    subst hg
    simp only [argumentsAt, Except.ok.injEq] at ha
    subst ha
    simp [anyArray] at h
  | cons v vs ih =>
    intro gens args hg ha h
    simp only [generators, bind, Except.bind, pure, Except.pure] at hg
    repeat' split at hg
    all_goals simp only [reduceCtorEq, Except.ok.injEq] at hg
    rename_i cells hc _ n _ _ rest hr
    subst hg
    simp only [argumentsAt, bind, Except.bind, pure, Except.pure] at ha
    repeat' split at ha
    all_goals simp only [reduceCtorEq, Except.ok.injEq] at ha
    rename_i x hx _ xs hxs
    subst ha
    by_cases hv : v.IsLeaf
    · simp only [anyArray, (cell_of_isLeaf hv hc hx).2, bind, Except.bind] at h
      obtain ⟨u, hu, hn⟩ := ih hr hxs (by simpa using h)
      exact ⟨u, List.mem_cons_of_mem _ hu, hn⟩
    · exact ⟨v, List.mem_cons_self .., hv⟩

/-- Where some argument is an array, all arguments are on the way down, and some operand is no
simple scalar. -/
theorem allDescend_argumentsAt {i : Number} {operands : List (View Item)}
    {gens : List (Gen Item × Bool)} {args : List Item} (hg : generators operands = .ok gens)
    (ha : argumentsAt i gens = .ok args) (h : anyArray args = .ok true) :
    View.AllDescend (args.map Item.lift) operands :=
  ⟨descent_argumentsAt hg ha, exists_not_isLeaf hg ha h⟩

end Pervade

namespace View

/-- A function of simple values applied to operands cell by cell, and to the arrays in their
cells. -/
def pervade (f : CellFunction) (result : ResultType) (operands : List (View Item)) : View Item :=
  let shape : Lazy Extents := Lazy.keep fun _ => do
    Pervade.commonShape (← operands.mapM View.shape)
  let etype : Lazy EType := Lazy.keep fun _ => result.apply (operands.mapM View.etype)
  let generator : Lazy (Gen Item) := Lazy.keep fun _ =>
    match shape.get with
    | .error e => .error e
    | .ok _ =>
      match _hg : Pervade.generators operands with
      | .error e => .error e
      | .ok gens => .ok <| .indexed fun i =>
        match _ha : Pervade.argumentsAt i gens with
        | .error e => .error e
        | .ok args =>
          match _h : Pervade.anyArray args with
          | .error e => .error e
          | .ok true => .ok (.view (pervade f result (args.map Item.lift)))
          | .ok false => f args
  let prototype : Lazy Item := .delay fun _ => do
    match (← etype.get).kind with
    | .mixed =>
      if (← (← shape.get).size).isZero then return .int 0
      else Item.fillOf (← (← generator.get).cell 0)
    | .char => return .blank
    | _ => return .int 0
  computed
    { shape := shape
      etype := etype
      prototype := prototype.run
      generator := generator.run
      form := ⟨"Operate", [("operands", Lazy.pure (.list (operands.map Item.view)))], false, none⟩ }
termination_by (⟨operands⟩ : View.Operands)
decreasing_by exact Pervade.allDescend_argumentsAt _hg _ha _h

end View
end LazyApl
