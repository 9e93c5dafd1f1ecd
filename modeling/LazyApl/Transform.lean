import LazyApl.Selection
/-!
# Index transforms

What each index transform does to the shape of its source, and its link: the map from cells of the
result to cells of the source. Everything here looks at one transform over one source; how the links
of a tower are merged and chained is said elsewhere.
-/

namespace LazyApl

/-- The position of a cell when the cells of an array of so many are gone through over and over. -/
def cyclic (i n : Number) : Except Fault Number := i.mod n

namespace Reshape

/-- Cells are numbered through: a larger result starts over, an empty source gives fills. -/
def link (dims : Shape) (source : Extents) : Except Fault Link := do
  let n ← source.size
  let dims := Extents.ofShape dims
  if n.isZero then return ⟨.linear fun _ => .ok none, dims, source⟩
  else if ← (← dims.size).le n then return Link.identity dims
  else return ⟨.linear fun i => return some (← cyclic i n), dims, source⟩

end Reshape

namespace Section

/-- One span per axis of the source; each counted axis is cut by its count. -/
def spans (drop : Bool) (source : Extents) : List Int → List Int → Layout → Except Fault Layout
  | a :: axes, count :: counts, l => do
    let n := source.getD a.toNat 0
    let span ← if drop then AxisSpan.drop count n else AxisSpan.take count n
    spans drop source axes counts (replaced l a span)
  | _, _, l => .ok l

def layout (drop : Bool) (counts : List Int) (axes : Option (List Int)) (source : Extents) :
    Except Fault Layout :=
  spans drop source (axes.getD (upTo counts.length)) counts (Layout.all source)

def link (l : Layout) (source : Extents) : Except Fault Link := do
  return ⟨.decoded l.locate, ← l.extents, source⟩

end Section

namespace Transpose

/-- Whether a list names every axis from zero up to its greatest. -/
def covers (axes : List Int) : Bool :=
  let top := axes.foldl max (-1)
  (upTo (top + 1)).all (axes.contains ·) && axes.all fun a => 0 ≤ a

def targets (axes : Option (List Number)) (source : Extents) : Except Fault (List Int) :=
  match axes with
  | none => .ok (upTo source.length).reverse
  | some axes =>
    if axes.length ≠ source.length then .error (.length .itemPerAxis [[axes.length], source])
    else do
      let axes ← axes.mapM Number.index
      if covers axes then .ok axes else .error (.domain .uncoveredAxes)

/-- The extent of a result axis: the least of the source axes that go to it. -/
def extent (targets : List Int) (source : Extents) (t : Int) : Except Fault Number :=
  let extents := (targets.zip source).filterMap fun (a, n) => if a = t then some n else none
  Number.least (extents.headD 0) extents.tail

def shape (targets : List Int) (source : Extents) : Except Fault Extents :=
  (upTo (targets.eraseDups.length)).mapM (extent targets source)

/-- Each source axis reads the coordinate of the result axis it goes to. -/
def link (targets : List Int) (source : Extents) : Except Fault Link := do
  let own ← shape targets source
  return ⟨.decoded fun c => return some (← targets.mapM fun t => pickAt c t), own, source⟩

end Transpose

/-- How the cells along an axis are turned. -/
inductive Turning
  | reversal
  | uniform (amount : Int)
  /-- One amount for each line along the axis. -/
  | perLine (amounts : List Int)

namespace Turning

/-- The source coordinate along the axis. -/
def turn (t : Turning) (shape : Extents) (axis : Int) (c : List Number) : Except Fault Number := do
  let n := shape.getD axis.toNat 0
  let x ← pickAt c axis
  match t with
  | reversal => (← n.sub 1).sub x
  | uniform k => cyclic (← x.add k) n
  | perLine ks =>
    let k ← pickBy ks (← Extents.position (without shape axis) (without c axis))
    cyclic (← x.add k) n

def link (t : Turning) (shape : Extents) (axis : Int) : Link :=
  ⟨.decoded fun c => return some (replaced c axis (← t.turn shape axis c)), shape, shape⟩

end Turning

namespace Rotation

/-- The axis of a rotation: the one given, or the first or last one. -/
def located (given : Option AxisArgument) (first : Bool) (origin : Origin) (source : Extents) :
    Except Fault Number :=
  match given with
  | some a => a.located source.length origin
  | none => .ok (.int (if source.isEmpty || first then 0 else source.length - 1))

/-- The axis of a rotation, which has to be whole to be turned. -/
def axis (given : Option AxisArgument) (first : Bool) (origin : Origin) (source : Extents) :
    Except Fault Int := do
  (← located given first origin source).index

def single (amount : Option IntArgument) : Except Fault (Option Int) :=
  match amount with
  | none => .ok none
  | some y => do
    if (← (← y.shape.get).size).isOne then
      let ks ← y.ints.get
      return ks.head?
    else return none

/-- The extents of a rotation; several amounts must fill the other axes. -/
def shape (amount : Option IntArgument) (given : Option AxisArgument) (first : Bool)
    (origin : Origin) (source : Extents) : Except Fault Extents :=
  match amount with
  | none => .ok source
  | some y => do
    let s ← y.shape.get
    if !(← s.size).isOne && !source.isEmpty then
      let a ← axis given first origin source
      if s.eq (without source a) then return source
      else .error (.length .rotationAmounts [s, without source a])
    else return source

/-- The link of a rotation whose single amount, if it has one, is known. -/
def linkWith (amount : Option IntArgument) (given : Option AxisArgument) (first : Bool)
    (origin : Origin) (source : Extents) (total : Option Int) : Except Fault Link := do
  let s ← shape amount given first origin source
  if s.isEmpty then return ⟨.decoded fun c => .ok (some c), [], []⟩
  else
    let a ← axis given first origin source
    match amount, total with
    | none, _ => return Turning.reversal.link s a
    | some _, some k => return (Turning.uniform k).link s a
    | some y, none => return (Turning.perLine (← y.ints.get)).link s a

end Rotation

namespace Replicate

/-- The axis of a replication: the one given, or the first or last one. -/
def located (given : Option AxisArgument) (first : Bool) (origin : Origin) (source : Extents) :
    Except Fault Number :=
  match given with
  | some a => a.located source.length origin
  | none => .ok (.int (if first then 0 else source.length - 1))

/-- The axis of a replication, which has to be whole to be replicated along. -/
def axis (given : Option AxisArgument) (first : Bool) (origin : Origin) (source : Extents) :
    Except Fault Int := do
  (← located given first origin source).index

/-- Cell `i` as often as its count says; a negative count gives fills. All of them go into one list,
which has come to some length before. -/
def expand (room : Room) (length : Nat) (i : Int) : List Int → Except Fault (List (Option Int))
  | [] => .ok []
  | d :: ds => do
    let own ← if 0 ≤ d then room.copies (some i) d else room.copies none (-d)
    let length ← room.grown length own.length
    let rest ← expand room length (i + 1) ds
    return own ++ rest

def positions (room : Room) (degrees : List Int) (isScalar : Bool) (n : Number) :
    Except Fault (List (Option Int)) := do
  let counts ← if isScalar then room.repeated degrees (← n.index) else pure degrees
  if ← n.lt counts.length then .error (.length .countsBeyondCells [[counts.length], [n]])
  else expand (room.beside counts.length) 0 0 counts

def link (positions : List (Option Int)) (axis : Int) (source : Extents) : Link :=
  let cells := positions.toArray
  ⟨.decoded fun c => do
      match ← pickFrom cells (← pickAt c axis) with
      | none => return none
      | some p => return some (replaced c axis (.int p)),
    replaced source axis positions.length, source⟩

end Replicate

namespace Selection

/-- The link of a selection. The indices are checked when a cell is located. -/
def link (indices : List (Option IntArgument)) (origin : Origin) (source : Extents) :
    Except Fault Link := do
  let s ← shape source indices
  let plans : Lazy (List AxisPlan) := Lazy.keep fun _ => plan origin 0 source indices
  return ⟨.decoded fun c => return some (← locate (← plans.get) c), s, source⟩

end Selection

namespace Step

/-- The name of a transform. -/
def name : Step → String
  | reshape .reshape _ => "Reshape"
  | reshape .ravel _ => "Ravel"
  | reshape .table _ => "Table"
  | cut .general _ _ _ => "Section"
  | cut .take _ _ _ => "Take"
  | cut .drop _ _ _ => "Drop"
  | permute _ => "Permute"
  | rotate _ _ _ _ => "Rotate"
  | compress _ _ _ _ _ _ => "Compress"
  | window _ _ => "SubArray"
  | select _ _ => "Select"

/-- The extents of a transform of an array of the given extents. -/
def shapeOver (s : Step) (source : Extents) : Except Fault Extents :=
  match s with
  | reshape _ dims => .ok (.ofShape dims)
  | cut _ drop counts axes => do (← Section.layout drop counts axes source).extents
  | permute axes => do Transpose.shape (← Transpose.targets axes source) source
  | rotate amount given first origin => Rotation.shape amount given first origin source
  | compress degrees isScalar given first origin room => do
    let a ← Replicate.axis given first origin source
    let n ← pickAt source a
    return replaced source a (← Replicate.positions room degrees isScalar n).length
  | window _ dims => .ok (dims.map Prod.fst)
  | select indices _ => Selection.shape source indices

/-- The extents of a transform that has the same extents over any array. -/
def fixedShape? : Step → Option Extents
  | reshape _ dims => some (.ofShape dims)
  | window _ dims => some (dims.map Prod.fst)
  | _ => none

/-- The link of a transform over an array of the given extents, on its own. -/
def linkOver (s : Step) (source : Extents) : Except Fault Link :=
  match s with
  | reshape _ dims => Reshape.link dims source
  | cut _ drop counts axes => do Section.link (← Section.layout drop counts axes source) source
  | permute axes => do Transpose.link (← Transpose.targets axes source) source
  | rotate amount given first origin => do
    Rotation.linkWith amount given first origin source (← Rotation.single amount)
  | compress degrees isScalar given first origin room => do
    let a ← Replicate.axis given first origin source
    let n ← pickAt source a
    return Replicate.link (← Replicate.positions room degrees isScalar n) a source
  | window offset dims => .ok (Link.affine offset dims source)
  | select indices origin => Selection.link indices origin source

end Step
end LazyApl
