import LazyApl.Proofs.Pervading
/-!
# Scalar functions of several operands

What a scalar function of any number of operands answers, told by what its operands answer. At each
position it takes one item from each operand, from one of a single cell always that cell. If some of
these items is an array, the function pervades all of them together.
-/
namespace LazyApl

open Outcome

namespace View

variable {f : CellFunction} {result : ResultType} {vs ws : List (View Item)}

theorem answers_eq_of_forall₂ (h : List.Forall₂ AnswersAs ws vs) :
    ws.mapM View.shape = vs.mapM View.shape ∧ ws.mapM View.etype = vs.mapM View.etype ∧
      Pervade.generators ws = Pervade.generators vs := by
  induction h with
  | nil => exact ⟨rfl, rfl, rfl⟩
  | cons hv _ ih =>
      obtain ⟨hshapes, hetypes, hgens⟩ := ih
      refine ⟨?_, ?_, ?_⟩
      · rw [List.mapM_cons, List.mapM_cons, hv.shape, hshapes]
      · rw [List.mapM_cons, List.mapM_cons, hv.etype, hetypes]
      · rw [Pervade.generators, Pervade.generators, hgens, hv.generator, View.size, View.size,
          hv.shape]

theorem AnswersAs.pervade (h : List.Forall₂ AnswersAs ws vs) (f : CellFunction)
    (result : ResultType) : (pervade f result ws).AnswersAs (pervade f result vs) := by
  obtain ⟨hshapes, hetypes, hgens⟩ := answers_eq_of_forall₂ h
  have hshape : (View.pervade f result ws).shape = (View.pervade f result vs).shape := by
    rw [shape_pervade, shape_pervade, commonShape, hshapes, ← commonShape]
  have hetype : (View.pervade f result ws).etype = (View.pervade f result vs).etype := by
    rw [etype_pervade, etype_pervade, hetypes]
  have hgenerator :
      (View.pervade f result ws).generator = (View.pervade f result vs).generator := by
    rw [generator_pervade, generator_pervade, hshape, hgens]
  refine ⟨isComputed_pervade f result ws, hshape, hetype, ?_, hgenerator⟩
  rw [prototype_pervade, prototype_pervade, hshape, hetype, hgenerator]

def ReadAs (vs : List (View Item)) (ps : List (Shape × Gen Item)) : Prop :=
  List.Forall₂ (fun v p => v.shape = .ok (.ofShape p.1) ∧ v.generator = .ok p.2) vs ps

/-- The items that a scalar function takes from operands at one position. -/
def takenAt (ps : List (Shape × Gen Item)) (i : Int) : Except Fault (List Item) :=
  ps.mapM fun p => p.2.cell (.int (if p.1.size = 1 then 0 else i))

variable {ps : List (Shape × Gen Item)} {t : Shape}

theorem ReadAs.mapM_shape (h : ReadAs vs ps) :
    vs.mapM View.shape = .ok (ps.map fun p => .ofShape p.1) := by
  induction h with
  | nil => rfl
  | cons hv _ ih =>
      rw [List.mapM_cons, hv.1, ih]
      rfl

theorem ReadAs.exists_generators (h : ReadAs vs ps) : ∃ gens, Pervade.generators vs = .ok gens ∧
    ∀ i : Int, Pervade.argumentsAt (.int i) gens = takenAt ps i := by
  induction h with
  | nil => exact ⟨[], rfl, fun i => rfl⟩
  | @cons v p vs ps hv _ ih =>
      obtain ⟨gens, hgens, hat⟩ := ih
      refine ⟨(p.2, (Number.int p.1.size).isOne) :: gens, ?_, fun i => ?_⟩
      · simp [Pervade.generators, hv.1, hv.2, hgens, View.size, bind, Except.bind, pure,
          Except.pure]
      · have hplace : (if (Number.int p.1.size).isOne = true then (0 : Number) else .int i) =
            .int (if p.1.size = 1 then 0 else i) := by
          by_cases h1 : p.1.size = 1 <;> simp [h1]
        rw [Pervade.argumentsAt, hplace, hat, takenAt, takenAt, List.mapM_cons]

/-- The cells of a scalar function are what it makes of the items at each position. -/
theorem ReadAs.generator_pervade (h : ReadAs vs ps) (f : CellFunction) (result : ResultType)
    (ht : Pervade.commonShape (ps.map fun p => .ofShape p.1) = .ok (.ofShape t)) :
    (pervade f result vs).shape = .ok (.ofShape t) ∧
      ∃ cells, (pervade f result vs).generator = .ok cells ∧
        ∀ i : Int, cells.cell (.int i) = takenAt ps i >>= pervadedCells f result := by
  obtain ⟨gens, hgens, hat⟩ := h.exists_generators
  have hshape : (pervade f result vs).shape = .ok (.ofShape t) := by
    rw [shape_pervade, commonShape, h.mapM_shape]
    exact ht
  have hgenerator : (pervade f result vs).generator = .ok (.indexed fun i =>
      Pervade.argumentsAt i gens >>= pervadedCells f result) := by
    rw [View.generator_pervade, hshape, hgens]
    rfl
  exact ⟨hshape, _, hgenerator, fun i => by rw [Gen.cell_indexed, hat]⟩

end View
end LazyApl
