import LazyApl.Expression
/-!
# Sessions

A session names arrays, sources of random numbers and settings, and answers questions about arrays.
A question is asked of the random numbers drawn so far. If it needs the content of a random array
that has not been drawn, the content is drawn from the source of that array and kept, and the
question is asked again; so every content is drawn once, by the first question that needs it. A
draw that fails leaves its source as it is after the numbers it took, and keeps nothing.
-/

namespace LazyApl

/-- The state of all sources, and what has been drawn from them. -/
structure Store where
  shared : List Source
  own : List (Label × Source)
  drawn : List (Label × List Scalar)

namespace Store

def empty : Store := ⟨[], [], []⟩

def contents (s : Store) : Contents := fun l => s.drawn.lookup l

def source (s : Store) (label : Label) : SourceRef → Source
  | .shared id => s.shared.getD id (Source.start .arbitrary)
  | .own start => (s.own.lookup label).getD (Source.start start)

/-- The store with the source of a random array in a new state. -/
def setSource (s : Store) (label : Label) (new : Source) : SourceRef → Store
  | .shared id => { s with shared := s.shared.set id new }
  | .own _ => { s with own := (label, new) :: s.own }

def draw (s : Store) (label : Label) (ref : SourceRef) (d : Draw) :
    Except Fault Unit × Store :=
  let (result, new) := (s.source label ref).draw d
  let s := s.setSource label new ref
  match result with
  | .error e => (.error e, s)
  | .ok xs => (.ok (), { s with drawn := (label, xs) :: s.drawn })

/-- The answer to a question that may need random numbers, and the store after it. The limit bounds
the number of contents that have to be drawn for it. -/
def answer {α : Type} (question : Contents → Except Fault α) : Nat → Store → Except Fault α × Store
  | 0, s => (question s.contents, s)
  | limit + 1, s =>
    match question s.contents with
    | .error (.undrawn label ref d) =>
      match s.draw label ref d with
      | (.error e, s) => (.error e, s)
      | (.ok _, s) => answer question limit s
    | result => (result, s)

end Store

/-- An array under a name: what it is, given the random numbers drawn so far and what was named
before. -/
abbrev Definition := Contents → List (String × Lazy Item) → Except Fault Item

/-- Everything that has been named, the latest first, what has been drawn, and how many expressions
and operations have been given. -/
structure Session where
  definitions : List (String × Definition)
  sources : List (String × Nat)
  configs : List (String × Config × Nat)
  store : Store
  expressions : Nat
  operations : Nat

namespace Session

def empty : Session := ⟨[], [], [], .empty, 0, 0⟩

/-- An answer that may need random numbers, and the session after it. -/
def ask {α : Type} (s : Session) (question : Contents → Except Fault α) :
    Except Fault α × Session :=
  let (result, store) := Store.answer question s.operations s.store
  (result, { s with store := store })

/-- The named arrays. Each refers only to what was named before it. -/
def arrays (contents : Contents) : List (String × Definition) → List (String × Lazy Item)
  | [] => []
  | (name, d) :: earlier =>
    let before := arrays contents earlier
    (name, Lazy.keep fun _ => d contents before) :: before

variable [Platform]

/-- The values of parameters that stand on their own, and the session after them. -/
def evaluate (s : Session) (es : List (Option Expression)) : Except Fault Parameters × Session :=
  let after := { s with
    expressions := s.expressions + 1
    operations := s.operations + Expression.operationsGiven es }
  after.ask fun contents =>
    Expression.evaluateGiven ⟨arrays contents s.definitions, s.sources, s.configs⟩ contents
      [s.expressions] 0 es

/-- The array that an expression stands for: its definition, and the session after it has been made
for the first time. -/
def make (s : Session) (e : Expression) : Except Fault Definition × Session :=
  let definition : Definition := fun contents before =>
    e.evaluate ⟨before, s.sources, s.configs⟩ contents [s.expressions]
  let after := { s with
    expressions := s.expressions + 1
    operations := s.operations + e.operations }
  let (result, after) := after.ask fun contents =>
    definition contents (arrays contents s.definitions)
  (result.map fun _ => definition, after)

/-- The array that an expression stands for, given what has been drawn, and the session after it has
been made for the first time. -/
def define (s : Session) (e : Expression) :
    Except Fault (Contents → Except Fault Item) × Session :=
  let (result, after) := s.make e
  (result.map fun d contents => d contents (arrays contents s.definitions), after)

/-- An array under a name. The name stays as it was if the array cannot be made. -/
def name (s : Session) (name : String) (e : Expression) : Except Fault Unit × Session :=
  match s.make e with
  | (.error e, s) => (.error e, s)
  | (.ok d, s) => (.ok (), { s with definitions := (name, d) :: s.definitions })

def newSource (s : Session) (start : Seeding) : Nat × Session :=
  (s.store.shared.length,
    { s with store := { s.store with shared := s.store.shared ++ [Source.start start] } })

/-- A source under a name, from a script or else from a seed. -/
def nameSource (s : Session) (name : String) (script : Option (List Nat))
    (seed : Option Expression) : Except Fault Unit × Session :=
  let (result, s) := s.evaluate [seed]
  match result.bind fun xs => Seeding.of script (xs.item 0) with
  | .error e => (.error e, s)
  | .ok start =>
    let (id, s) := s.newSource start
    (.ok (), { s with sources := (name, id) :: s.sources })

/-- Settings that make sense, given origin, tolerance and seed in this order. -/
def config (s : Session) (es : List (Option Expression)) (script : Option (List Nat)) :
    Except Fault Config × Session :=
  let (result, s) := s.evaluate es
  (result.bind fun xs =>
    (Config.given xs[0]?.join xs[1]?.join xs[2]?.join script).check, s)

def nameConfig (s : Session) (name : String) (es : List (Option Expression))
    (script : Option (List Nat)) : Except Fault Unit × Session :=
  let (result, s) := s.config es script
  match result.bind fun c => return (c, ← c.seeding) with
  | .error e => (.error e, s)
  | .ok (c, start) =>
    let (id, s) := s.newSource start
    (.ok (), { s with configs := (name, c, id) :: s.configs })

end Session
end LazyApl
