import LazyApl.Text.Template
/-!
# Arithmetic of items

The simple functions that scalar functions apply to cells. Numbers combine in the wider of their
kinds; text and lists are joined by addition and repeated by multiplication; everything else is
refused, arrays and views in particular.
-/

namespace LazyApl
namespace Item

def number : Item → Except Fault Number
  | scalar s => s.number
  | _ => .error .operandType

@[simp] theorem number_int (n : Int) : (int n).number = .ok (.int n) := rfl

def withNumber (f : Number → Except Fault Number) (a : Item) : Except Fault Item := do
  return ofNumber (← f (← a.number))

def withNumbers (f : Number → Number → Except Fault Number) (a b : Item) : Except Fault Item := do
  return ofNumber (← f (← a.number) (← b.number))

def add : Item → Item → Except Fault Item
  | scalar (.text s), scalar (.text t) => .ok (text (s ++ t))
  | list xs, list ys => .ok (list (xs ++ ys))
  | a, b => withNumbers Number.add a b

def sub (a b : Item) : Except Fault Item := withNumbers Number.sub a b

/-- The product; texts and lists are repeated, as far as there is room. -/
def mul [Platform] (a b : Item) : Except Fault Item :=
  match a, b with
  | scalar (.text s), b => times b fun n => text <$> Platform.room.repeatedText s n
  | a, scalar (.text s) => times a fun n => text <$> Platform.room.repeatedText s n
  | list xs, b => times b fun n => list <$> Platform.room.repeated xs n
  | a, list xs => times a fun n => list <$> Platform.room.repeated xs n
  | a, b => withNumbers Number.mul a b
where
  times (count : Item) (f : Int → Except Fault Item) : Except Fault Item := do
    match ← count.number with
    | .int n => f n
    | _ => .error .operandType

def div (a b : Item) : Except Fault Item := withNumbers Number.div a b

/-- The remainder. What is left of a text is the text as a template, filled with the divisor. -/
def mod [Platform] : Item → Item → Except Fault Item
  | scalar (.text s), x => text <$> Template.fill s x
  | a, b => withNumbers Number.mod a b

def pow (a b : Item) : Except Fault Item := withNumbers Number.pow a b

def neg (a : Item) : Except Fault Item := withNumber (fun x => .ok x.neg) a

def abs (a : Item) : Except Fault Item := withNumber Number.abs a

mutual

/-- Order of items: numbers by value, texts by code point, lists by their first difference. -/
def lt : Item → Item → Except Fault Bool
  | scalar a, scalar b => a.lt b
  | list xs, list ys => ltAll xs ys
  | _, _ => .error .operandType

/-- Order of lists by their first difference; a list comes after its beginnings. -/
def ltAll : List Item → List Item → Except Fault Bool
  | [], [] => .ok false
  | [], _ :: _ => .ok true
  | _ :: _, [] => .ok false
  | x :: xs, y :: ys => do if ← same x y then ltAll xs ys else lt x y

end

/-- The greater item, the first one unless the second is strictly greater. -/
def maximum (a b : Item) : Except Fault Item := do
  if ← lt a b then return b else return a

/-- The lesser item, the first one unless the second is strictly less. -/
def minimum (a b : Item) : Except Fault Item := do
  if ← lt b a then return b else return a

def isZero : Item → Bool
  | scalar s => s.isZero
  | _ => false

end Item
end LazyApl
