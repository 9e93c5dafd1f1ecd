import LazyApl.Proofs.ItemFills
import LazyApl.Proofs.Mixing
/-!
# Mixes of arrays without items

A mix takes the axes that the items have in common from the items. Where there are none it takes no
axes from anywhere, although the fill of an array of enclosed axes has their extents. So mixing an
array that was split gives it back its last axis exactly if there are items, which is if no axis but
the last is of extent zero.
-/
namespace LazyApl

open Outcome

namespace Mix

variable {m : Shape} {r : Nat}

theorem Unites.eq_nil (h : Unites [] r m) : m = [] := by
  cases m with
  | nil => rfl
  | cons n m =>
      obtain ⟨_, hmem, _⟩ := h.hull.attained 0 (Nat.zero_lt_succ _)
      cases hmem

end Mix

namespace View

variable {v w : View Item} {s : Shape} {o : Int → Int} {dims : List (Int × Int)}

theorem HoldsWindows.mixes (hw : w.HoldsWindows v s o fun _ => dims) :
    w.Mixes s ((upTo s.size).map fun i => .view (v.frame (o i) dims))
      (List.replicate s.size.toNat (dims.map Prod.fst)) := by
  refine ⟨hw.shape, hw.unrendered_eq, ?_⟩
  rw [← length_upTo, ← List.map_const', List.forall₂_map_left_iff, List.forall₂_map_right_iff,
    List.forall₂_same]
  exact fun i _ => shape_frame

theorem HoldsWindows.shape_mix (hw : w.HoldsWindows v s o fun _ => dims) (hs : s.IsProper) :
    (Item.mix (.view w)).shape =
      .ok (.ofShape (s ++ if 0 ∈ s then [] else dims.map Prod.fst)) := by
  obtain ⟨r, m, hunites, hshape, _⟩ := hw.mixes.mix_spec hs
  rw [hshape]
  split
  · rename_i h0
    rw [Shape.size_eq_zero.mpr h0] at hunites
    rw [hunites.eq_nil]
  · rename_i h0
    have hsize : s.size ≠ 0 := mt Shape.size_eq_zero.mp h0
    have hcount : s.size.toNat ≠ 0 := by
      have hnonneg := Shape.size_nonneg hs
      omega
    obtain ⟨n, hn⟩ := Nat.exists_eq_succ_of_ne_zero hcount
    rw [hn] at hunites
    rw [hunites.eq_of_replicate.2]

end View

namespace Shape

theorem along_last {t : Shape} {n : Nat} (hl : t.length = n + 1) (hne : t ≠ []) :
    along t (Enclose.others t.length [(n : Int)]) = t.dropLast ∧
      along t [(n : Int)] = [t.getLast hne] := by
  have hall := along_upTo hl
  rw [← Enclose.others_last, along, List.map_append] at hall
  rw [hl]
  exact List.append_inj' (hall.trans (List.dropLast_append_getLast hne).symm) rfl

end Shape

namespace Item

variable {x : Item} {v : View Item} {t : Shape} {origin : Origin}

/-- The mix of an array of enclosed axes has the other axes, and behind them the enclosed ones
unless another axis is of extent zero. -/
theorem shape_mix_encloseAxes (name : String) {as ns : List Int} (ht : t.IsProper)
    (hv : v.shape = .ok (.ofShape t))
    (hn : Enclose.innerAxes as (.ok t.length) origin = .ok (ns.map .int)) (hne : ns ≠ []) :
    (mix (.view (encloseAxes name v as origin))).shape =
      .ok (.ofShape (Shape.along t (Enclose.others t.length ns) ++
        if 0 ∈ Shape.along t (Enclose.others t.length ns) then [] else Shape.along t ns)) := by
  have hwindows := View.holdsWindows_encloseAxes name hv hn hne
  rw [Enclose.outerAxes_eq] at hwindows
  rw [hwindows.shape_mix (ht.along _), Enclose.map_fst_dims]

/-- The mix of a split array has its shape exactly if no axis but the last is of extent zero.
Otherwise it is left without the last axis, whose extent the fill of the split array has. -/
theorem mix_split_shape (hx : x.lift.shape = .ok (.ofShape t)) (ht : t.IsProper) (hne : t ≠ [])
    (ho : origin.IsWhole) :
    ∃ w, split x none origin = .ok w ∧
      (mix (.view w)).shape = .ok (.ofShape (if 0 ∈ t.dropLast then t.dropLast else t)) ∧
      ((mix (.view w)).shape = x.lift.shape ↔ 0 ∉ t.dropLast) ∧
      w.FillsWith x.lift [t.getLast hne] := by
  obtain ⟨o, ho⟩ := ho
  obtain ⟨n, hl⟩ := Nat.exists_eq_succ_of_ne_zero (mt List.length_eq_zero_iff.mp hne)
  obtain ⟨hothers, hlast⟩ := Shape.along_last hl hne
  have hinner : Enclose.innerAxes ([(n : Int)].map (· + o)) (.ok t.length) origin =
      .ok ([(n : Int)].map .int) :=
    Enclose.innerAxes_eq ho (List.nodup_singleton _) (by simp [hl])
  have hshape := shape_mix_encloseAxes "Split" ht hx hinner (List.cons_ne_nil _ _)
  have hfill := View.fillsWith_encloseAxes "Split" ht hx hinner (List.cons_ne_nil _ _)
  rw [hothers, hlast] at hshape
  rw [hlast] at hfill
  by_cases h0 : 0 ∈ t.dropLast
  · rw [if_pos h0, List.append_nil] at hshape
    refine ⟨_, split_lastAxis ho hx hl, ?_, ?_, hfill⟩
    · rw [hshape, if_pos h0]
    · refine iff_of_false (fun h => ?_) (not_not_intro h0)
      have hsame := Extents.ofShape_inj (Except.ok.inj ((hshape.symm.trans h).trans hx))
      have hlen := congrArg List.length hsame
      rw [List.length_dropLast] at hlen
      omega
  · rw [if_neg h0, List.dropLast_append_getLast] at hshape
    refine ⟨_, split_lastAxis ho hx hl, ?_, ?_, hfill⟩
    · rw [hshape, if_neg h0]
    · exact iff_of_true (hshape.trans hx.symm) h0

/-- No rows of three columns: the columns are lost when the rows are split and mixed, but the fill
of the split array has three cells. -/
theorem mix_split_no_rows :
    ∃ w g, split (.array ⟨[0, 3], [], some (.int 0)⟩) none (.int 0) = .ok w ∧
      (mix (.view w)).shape = .ok (.ofShape [0]) ∧ w.prototype = .ok (.array g) ∧
      g.shape = [3] := by
  have proper : Shape.IsProper [0, 3] := by simp [Shape.IsProper]
  have whole : Scalar.IsWhole (.int 0) := ⟨0, rfl⟩
  obtain ⟨w, hw, hshape, _, hfill⟩ := mix_split_shape (x := .array ⟨[0, 3], [], some (.int 0)⟩)
    rfl proper (by simp) whole
  have kept : Grid.IsKept ⟨[0, 3], [], some (.int 0)⟩ := ⟨rfl, by simp⟩
  obtain ⟨q, hq⟩ := hfill.answers (View.answers_ofGrid kept rfl)
  obtain ⟨g, rfl, hg⟩ := hfill.shape q hq
  exact ⟨w, g, hw, hshape, hq, hg⟩

end Item
end LazyApl
