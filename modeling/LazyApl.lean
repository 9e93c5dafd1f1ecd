import LazyApl.Inspect
import LazyApl.Listing
import LazyApl.Session
import LazyApl.Platform.Usual
import LazyApl.Proofs.Links
import LazyApl.Proofs.Encodings
import LazyApl.Proofs.Spans
import LazyApl.Proofs.Outcome
import LazyApl.Proofs.Rooms
import LazyApl.Proofs.Gathers
import LazyApl.Proofs.Turnings
import LazyApl.Proofs.Steps
import LazyApl.Proofs.Folding
import LazyApl.Proofs.Raising
import LazyApl.Proofs.Stepwise
import LazyApl.Proofs.Windows
import LazyApl.Proofs.Bounds
import LazyApl.Proofs.Settling
import LazyApl.Proofs.Likeness
import LazyApl.Proofs.Collecting
import LazyApl.Proofs.Rendering
import LazyApl.Proofs.Overtaking
import LazyApl.Proofs.WindowRendering
import LazyApl.Proofs.NestedViews
import LazyApl.Proofs.Keeping
import LazyApl.Proofs.Covering
import LazyApl.Proofs.Amounts
import LazyApl.Proofs.Dealing
import LazyApl.Proofs.Promises
import LazyApl.Proofs.Repeating
import LazyApl.Proofs.Sorting
import LazyApl.Proofs.Landing
import LazyApl.Proofs.Typing
import LazyApl.Proofs.Joining
import LazyApl.Proofs.ElementTypes
import LazyApl.Proofs.LeastTypes
import LazyApl.Proofs.Soundness
import LazyApl.Proofs.Addressing
import LazyApl.Proofs.Assigning
import LazyApl.Proofs.Reading
import LazyApl.Proofs.Straying
import LazyApl.Proofs.Packing
import LazyApl.Proofs.Masking
import LazyApl.Proofs.Paths
import LazyApl.Proofs.PathForms
import LazyApl.Proofs.Replacing
import LazyApl.Proofs.CommonShapes
import LazyApl.Proofs.Pervading
import LazyApl.Proofs.Pervadable
import LazyApl.Proofs.Operands
import LazyApl.Proofs.PervadingPaths
import LazyApl.Proofs.Combining
import LazyApl.Proofs.Renumbering
import LazyApl.Proofs.PervadingTransforms
import LazyApl.Proofs.Sessions
import LazyApl.Proofs.Lookups
import LazyApl.Proofs.Comparing
import LazyApl.Proofs.Grading
import LazyApl.Proofs.Ordering
import LazyApl.Proofs.Contents
import LazyApl.Proofs.Buffers
import LazyApl.Proofs.Radices
import LazyApl.Proofs.Transposing
import LazyApl.Proofs.MixedShapes
import LazyApl.Proofs.Mixing
import LazyApl.Proofs.Sections
import LazyApl.Proofs.Sources
import LazyApl.Proofs.Reindexing
import LazyApl.Proofs.Mirroring
import LazyApl.Proofs.Agreeing
import LazyApl.Proofs.AxisByAxis
import LazyApl.Proofs.Catenating
import LazyApl.Proofs.Complements
import LazyApl.Proofs.Rotations
import LazyApl.Proofs.Permuting
import LazyApl.Proofs.Doubles
import LazyApl.Proofs.Laminating
import LazyApl.Proofs.Replicating
import LazyApl.Proofs.Filling
import LazyApl.Proofs.Stretches
import LazyApl.Proofs.Tilings
import LazyApl.Proofs.Partitioning
import LazyApl.Proofs.Uniting
import LazyApl.Proofs.MixedTypes
import LazyApl.Proofs.Disclosing
import LazyApl.Proofs.Equality
import LazyApl.Proofs.Searching
import LazyApl.Proofs.Distinct
import LazyApl.Proofs.Sifting
import LazyApl.Proofs.KeyedGrades
import LazyApl.Proofs.Odometers
import LazyApl.Proofs.Enumerating
import LazyApl.Proofs.Tallying
import LazyApl.Proofs.IndexLists
import LazyApl.Proofs.Finding
import LazyApl.Proofs.RadixColumns
import LazyApl.Proofs.InnerProducts
import LazyApl.Proofs.ComparisonTypes
import LazyApl.Proofs.ItemFills
import LazyApl.Proofs.EmptyMixes
