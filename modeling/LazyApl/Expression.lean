import LazyApl.Listing
import LazyApl.Setting
import LazyApl.Vocabulary
/-!
# Expressions

An expression says how an array is made: from a value, from an array named before, or by an
operation on other expressions. The parameters of an operation are evaluated in order, and only then
is it found out whether one is missing that the operation cannot do without. Settings of a call and
the seed of a source are parameters too, after all others. Evaluation makes the array without
computing its cells. Whatever random numbers have been drawn is given to it, so that evaluating
again after more numbers were drawn gives the same array with more of its content known.
-/

namespace LazyApl

/-- Where the random numbers of an operation come from: a source named before, or one of its own,
whose seed is the last parameter. -/
inductive SourceName
  | named (name : String)
  | own (script : Option (List Nat))

/-- The settings of a call: those named before, or its own, of which origin, tolerance and seed are
the last parameters. -/
inductive ConfigName
  | named (name : String)
  | own (script : Option (List Nat))

/-- An operation, with those parameters that are no expressions. -/
inductive Operation
  | lift
  | reshape
  | ravel
  | table
  | cut (style : Cut)
  | permute
  | rotate
  | catenate
  | replicate
  | window (dims : Option (List (Number × Number)))
  | mix
  | enclose
  | split
  | partition (style : Partition.Style)
  | select (function : Option CellFunction)
  | amendMasked (function : Option CellFunction)
  | pick (function : Option CellFunction)
  | first
  | grade
  | decode
  | encode
  | inverse
  | matrixDivide
  | roll (source : SourceName)
  | deal (source : SourceName)
  | membership
  | occurrences
  | intersection
  | union
  | without
  | indexOf
  | unique
  | whereOnes
  | inverseWhere
  | pervade (function : Option CellFunction) (result : ResultType)
  | iota
  | shapeVector
  | tally
  | depth
  /-- A function of the vocabulary; its axis comes after its arguments. -/
  | primitive (glyph : String) (config : ConfigName)

/-- How an array is made. -/
inductive Expression
  | value (x : Item)
  | reference (name : String)
  | list (es : List Expression)
  /-- An operation on parameters, of which some may be missing. -/
  | apply (op : Operation) (arguments : List (Option Expression))

/-- What names stand for. An array under a name is made when it is first referred to. -/
structure Environment where
  arrays : List (String × Lazy Item)
  sources : List (String × Nat)
  configs : List (String × Config × Nat)

/-- The random numbers drawn so far, the place of an operation, and what names stand for. -/
structure Context where
  environment : Environment
  contents : Contents
  label : Label

namespace Context

/-- The source of a name, or the one that a seed starts. -/
def source (c : Context) (name : SourceName) (seed : Item) : Except Fault SourceRef :=
  match name with
  | .own script => return .own (← Seeding.of script seed)
  | .named name =>
    match c.environment.sources.lookup name with
    | some id => .ok (.shared id)
    | none => .error .unnamed

def chance (c : Context) (name : SourceName) (seed : Item) : Except Fault Chance := do
  return ⟨c.label, ← c.source name seed, c.contents⟩

/-- The settings of a call, if they make sense. -/
def setting (c : Context) (name : ConfigName) (origin tolerance seed : Option Item) :
    Except Fault Setting := do
  let (config, source) ← match name with
    | .own script => do
      let config ← (Config.given origin tolerance seed script).check
      pure (config, SourceRef.own (← config.seeding))
    | .named name =>
      match c.environment.configs.lookup name with
      | some (config, id) => pure (config, SourceRef.shared id)
      | none => .error .unnamed
  return ⟨config.origin?.getD (.int 0), config.tolerance, ⟨c.label, source, c.contents⟩⟩

end Context

namespace Item

def given : Item → Option Item
  | scalar .nothing => none
  | x => some x

/-- The members of a list; anything else is its own only member. -/
def listed : Item → List Item
  | list xs => xs
  | x => [x]

/-- Whether an item counts as true: nothing, zeros and what is empty do not, but arrays do. -/
def isTrue : Item → Bool
  | scalar .nothing => false
  | scalar (.text s) => !s.isEmpty
  | scalar s => !s.isZero
  | list xs => !xs.isEmpty
  | array _ | view _ => true

end Item

/-- The values of the parameters of an operation, in order. -/
abbrev Parameters := List (Option Item)

namespace Parameters

variable (xs : Parameters) (k : Nat)

/-- The parameter at a position; nothing if it is missing. -/
def item : Item := xs[k]?.join.getD .nothing

/-- The parameter at a position, if it is there and not nothing. -/
def optional : Option Item := (xs.item k).given

/-- An origin, which is 0 if it is missing. What is no simple value is of no use as one. -/
def origin : Origin :=
  match xs[k]?.join with
  | none => .int 0
  | some (.scalar s) => s
  | some _ => .nothing

def tolerance : Tolerance := xs[k]?.join.getD defaultTolerance

def flag : Bool := (xs.item k).isTrue

/-- Whether one of the first so many parameters is missing. -/
def lacksSome (n : Nat) : Bool := decide (((xs.take n).filterMap id).length < n)

end Parameters

namespace Operation

variable [Platform]

/-- How many parameters, counted from the first, an operation cannot do without. -/
def required : Operation → Nat
  | mix | first | inverse | shapeVector | tally | depth | primitive _ _ => 0
  | reshape | cut _ | replicate | window _ | partition _ | select _ | pick _ => 2
  | decode | encode | matrixDivide | deal _ => 2
  | membership | occurrences | intersection | union | without | indexOf => 2
  | amendMasked _ => 3
  | _ => 1

/-- The arrays to be joined: the members of a list, or the characters of a text. -/
def joined (x : Item) : Except Fault (List Item) :=
  if x.isTrue then x.sequence else .ok []

/-- The array that an operation makes of its parameters, when those are there that it needs. -/
def construct (op : Operation) (c : Context) (xs : Parameters) : Except Fault (View Item) :=
  let base := xs.item 0
  let second := xs.item 1
  match op with
  | lift => .ok base.lift
  | reshape => base.reshape second
  | ravel => base.ravel
  | table => base.table
  | cut .general => base.cut .general (xs.flag 3) second (xs.optional 2) (xs.origin 4)
  | cut .take => base.take second (xs.optional 2) (xs.origin 3)
  | cut .drop => base.drop second (xs.optional 2) (xs.origin 3)
  | permute => base.permute (xs.optional 1) (xs.origin 2)
  | rotate =>
    .ok (base.rotate (xs.optional 1) (axisArgument (xs.optional 2)) (xs.flag 3) (xs.origin 4))
  | catenate => do
    Item.catenate (← joined base) (xs.optional 1) (xs.flag 2) (xs.origin 3)
  | replicate =>
    base.replicate second (axisArgument (xs.optional 2)) (xs.flag 3) (xs.origin 4)
  | window dims =>
    match dims with
    | some dims => .ok (base.window second dims)
    | none => .error .operandType
  | mix => .ok base.mix
  | enclose => base.enclose (xs.optional 1) (xs.origin 2)
  | split => base.split (xs.optional 1) (xs.origin 2)
  | partition style => base.partition style second (xs.optional 2) (xs.origin 3)
  | select function =>
    let indices := second.listed.map Item.given
    match xs.optional 2, function with
    | none, none => base.select indices (xs.origin 3)
    | values, _ => base.amend indices ⟨values.map Item.lift, function⟩ (xs.origin 3)
  | amendMasked function => .ok (base.amendMasked second (xs.item 2) function)
  | pick function => base.pick second ⟨xs.optional 2, function⟩ (xs.origin 3)
  | first => .ok base.first
  | grade => .ok (base.grade (xs.optional 1) (xs.flag 2) (xs.origin 3))
  | decode => .ok (base.decode second)
  | encode => .ok (base.encode second)
  | inverse => .ok base.inverse
  | matrixDivide => .ok (base.matrixDivide second)
  | roll source => return base.roll (xs.origin 1) (← c.chance source (xs.item 2))
  | deal source => do base.deal second (xs.origin 2) (← c.chance source (xs.item 3))
  | membership => .ok (base.membership second (xs.tolerance 2))
  | occurrences => .ok (base.occurrencesOf second (xs.tolerance 2))
  | intersection => .ok (base.intersection second (xs.tolerance 2))
  | union => .ok (base.union second (xs.tolerance 2))
  | without => .ok (base.without second (xs.tolerance 2))
  | indexOf => .ok (base.indexOf second (xs.origin 2) (xs.tolerance 3))
  | unique => .ok (base.unique (xs.tolerance 1))
  | whereOnes => .ok (base.whereOnes (xs.origin 1))
  | inverseWhere => .ok (base.inverseWhere (xs.origin 1))
  | pervade function result => do
    match function with
    | some f => return View.pervade f result ((← base.sequence).map Item.lift)
    | none => .error .operandType
  | iota => base.iota (xs.origin 1)
  | shapeVector => .ok base.shapeVector
  | tally => .ok base.tally
  | depth => .ok base.depthOf
  | primitive glyph config => do
    let n := xs.length - 4
    let setting ← c.setting config xs[n + 1]?.join xs[n + 2]?.join xs[n + 3]?.join
    match xs.take n with
    | [some x] => (← Vocabulary.monadic glyph) setting (xs.optional n) x
    | [some a, some x] => (← Vocabulary.dyadic glyph) setting (xs.optional n) a x
    | _ => .error .operandType

/-- The array that an operation makes of its parameters. -/
def build (op : Operation) (c : Context) (xs : Parameters) : Except Fault (View Item) := do
  match op with
  | roll source => let _ ← c.source source (xs.item 2)
  | deal source => let _ ← c.source source (xs.item 3)
  | _ => pure ()
  if xs.lacksSome op.required then .error .operandType else op.construct c xs

end Operation

namespace Expression

variable [Platform]

mutual

/-- The value of an expression, at a place among all expressions. -/
def evaluate (environment : Environment) (contents : Contents) (label : Label) :
    Expression → Except Fault Item
  | value x => .ok x
  | reference name =>
    match environment.arrays.lookup name with
    | some x => x.get
    | none => .error .unnamed
  | list es => do return .list (← evaluateAll environment contents label 0 es)
  | apply op es => do
    let xs ← evaluateGiven environment contents label 0 es
    return .view (← op.build ⟨environment, contents, label⟩ xs)

def evaluateAll (environment : Environment) (contents : Contents) (label : Label) (k : Nat) :
    List Expression → Except Fault (List Item)
  | [] => .ok []
  | e :: es => do
    let x ← evaluate environment contents (label ++ [k]) e
    let xs ← evaluateAll environment contents label (k + 1) es
    return x :: xs

/-- The values of those parameters that are given, in order. -/
def evaluateGiven (environment : Environment) (contents : Contents) (label : Label) (k : Nat) :
    List (Option Expression) → Except Fault Parameters
  | [] => .ok []
  | none :: es => do return none :: (← evaluateGiven environment contents label (k + 1) es)
  | some e :: es => do
    let x ← evaluate environment contents (label ++ [k]) e
    let xs ← evaluateGiven environment contents label (k + 1) es
    return some x :: xs

end

mutual

def operations : Expression → Nat
  | value _ | reference _ => 0
  | list es => operationsAll es
  | apply _ es => operationsGiven es + 1

def operationsAll : List Expression → Nat
  | [] => 0
  | e :: es => operations e + operationsAll es

def operationsGiven : List (Option Expression) → Nat
  | [] => 0
  | none :: es => operationsGiven es
  | some e :: es => operations e + operationsGiven es

end

end Expression
end LazyApl
