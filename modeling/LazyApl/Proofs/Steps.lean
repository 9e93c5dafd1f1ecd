import LazyApl.Proofs.Gathers
import LazyApl.Proofs.Spans
import LazyApl.Proofs.Turnings
/-!
# One transform over one source

Whatever the transform, if its constructor has accepted its arguments and it has a shape over a
source of whole extents, its shape is one of whole extents and its link leads each cell of it to a
cell of the source or to none. This is all that a tower needs to know about its steps.
-/
namespace LazyApl

open Outcome

namespace Step

/-- What the constructor of a transform makes sure of, over a source of the given extents. -/
def IsSound (t : Shape) : Step → Prop
  | reshape _ dims => Shape.IsProper dims
  | rotate amount _ _ origin =>
    (∀ y ∈ amount, y.IsCounted) ∧ ∃ o, origin.number = .ok (.int o)
  | select indices origin => ∃ o, origin.number = .ok (.int o) ∧ Selection.InRange o t indices
  | window offset dims =>
    ∃ o ds, offset.number = .ok (.int o) ∧ dims = Link.ofDims ds ∧ Link.Frames o ds t
  | _ => True

/-- Whether the transform is a window, the only one that has a fill of its own. -/
def isWindow : Step → Bool
  | window _ _ => true
  | _ => false

/-- Whether the transform has the element type of its source, whatever it shows of it. -/
def keepsType : Step → Bool
  | permute _ | rotate _ _ _ _ | window _ _ | select _ _ => true
  | _ => false

/-- The transform has the shape `u` over a source of shape `t`, and its link leads from the one to
the other if it has one. -/
def Leads (s : Step) (u t : Shape) : Prop :=
  u.IsProper ∧ ∀ l, s.linkOver (.ofShape t) = .ok l → l.Carries u t

theorem leads_reshape {style : Recast} {dims t : Shape} (ht : t.IsProper) (hd : dims.IsProper) :
    (reshape style dims).Leads dims t := by
  obtain ⟨l, hl, hc⟩ := Reshape.carries_link hd ht
  refine ⟨hd, fun m hm => ?_⟩
  rw [linkOver, hl] at hm
  cases hm
  exact hc

theorem leads_cut {style : Cut} {drop : Bool} {counts : List Int} {axes : Option (List Int)}
    {t : Shape} {e : Extents} (ht : t.IsProper)
    (he : (cut style drop counts axes).shapeOver (.ofShape t) = .ok e) :
    ∃ u, e = .ofShape u ∧ (cut style drop counts axes).Leads u t := by
  obtain ⟨l, hl, hf⟩ := Section.layout_ofShape drop counts axes ht
  simp only [shapeOver, hl, Layout.extents_ofSpans, bind, Except.bind] at he
  cases he
  refine ⟨_, rfl, hf.shape_isProper, fun m hm => ?_⟩
  simp only [linkOver, hl, Section.link_ofSpans, bind, Except.bind] at hm
  cases hm
  exact (Section.maps_linkOf hf).carries

theorem leads_permute {axes : Option (List Number)} {t : Shape} {e : Extents} (ht : t.IsProper)
    (he : (permute axes).shapeOver (.ofShape t) = .ok e) :
    ∃ u, e = .ofShape u ∧ (permute axes).Leads u t := by
  obtain ⟨ts, hts, he⟩ := bind_eq_ok.mp he
  obtain ⟨hl, hb⟩ := Transpose.targets_spec hts
  rw [Extents.length_ofShape] at hl
  rw [Transpose.shape_ofShape] at he
  cases he
  refine ⟨_, rfl, Transpose.turnedShape_isProper ht, fun m hm => ?_⟩
  obtain ⟨l, hl, hc⟩ := Transpose.carries_link ht hl hb
  simp only [linkOver, hts, hl, bind, Except.bind] at hm
  cases hm
  exact hc

theorem leads_rotate {amount : Option IntArgument} {given : Option AxisArgument} {first : Bool}
    {origin : Origin} {t : Shape} {e : Extents} (ht : t.IsProper) (hy : ∀ y ∈ amount, y.IsCounted)
    (he : (rotate amount given first origin).shapeOver (.ofShape t) = .ok e) :
    ∃ u, e = .ofShape u ∧ (rotate amount given first origin).Leads u t := by
  refine ⟨t, Rotation.shape_eq he, ht, fun m hm => ?_⟩
  obtain ⟨k, hk, hm⟩ := bind_eq_ok.mp hm
  refine Rotation.carries_linkWith hy ht he (fun hn => ?_) hm
  rw [← hn, hk]

theorem leads_compress {degrees : List Int} {isScalar : Bool} {given : Option AxisArgument}
    {first : Bool} {origin : Origin} {room : Room} {t : Shape} {e : Extents} (ht : t.IsProper)
    (he : (compress degrees isScalar given first origin room).shapeOver (.ofShape t) = .ok e) :
    ∃ u, e = .ofShape u ∧ (compress degrees isScalar given first origin room).Leads u t := by
  obtain ⟨k, hk, he⟩ := bind_eq_ok.mp he
  obtain ⟨x, hx, he⟩ := bind_eq_ok.mp he
  obtain ⟨ps, hps, he⟩ := bind_eq_ok.mp he
  cases he
  obtain ⟨a, n, rfl, ha, rfl⟩ := Replicate.axis_spec hk hx
  refine ⟨t.set a ps.length, by simp [replaced, Extents.ofShape, List.map_set],
    ht.set (Int.natCast_nonneg _) a, fun m hm => ?_⟩
  simp only [linkOver, hk, hx, hps, bind, Except.bind] at hm
  cases hm
  exact Replicate.carries_link ht ha fun x hx => Replicate.positions_spec hps hx

theorem leads_select {indices : List (Option IntArgument)} {origin : Origin} {o : Int} {t : Shape}
    {e : Extents} (ht : t.IsProper) (ho : origin.number = .ok (.int o))
    (hi : Selection.InRange o t indices)
    (he : (select indices origin).shapeOver (.ofShape t) = .ok e) :
    ∃ u, e = .ofShape u ∧ (select indices origin).Leads u t := by
  obtain ⟨u, l, hu, hp, hl, hc⟩ := Selection.carries_link ht ho hi
  rw [shapeOver, hu] at he
  cases he
  refine ⟨u, rfl, hp, fun m hm => ?_⟩
  rw [linkOver, hl] at hm
  cases hm
  exact hc

theorem leads_window {offset : Scalar} {o : Int} {dims : List (Int × Int)} {t : Shape}
    (ho : offset.number = .ok (.int o)) (hf : Link.Frames o dims t) :
    (window offset (Link.ofDims dims)).Leads (dims.map Prod.fst) t := by
  refine ⟨hf.proper, fun m hm => ?_⟩
  cases hm
  exact (Link.maps_affine ho hf).carries

theorem IsSound.leads {s : Step} {t : Shape} {e : Extents} (hs : s.IsSound t) (ht : t.IsProper)
    (he : s.shapeOver (.ofShape t) = .ok e) : ∃ u, e = .ofShape u ∧ s.Leads u t := by
  cases s with
  | reshape style dims =>
      cases he
      exact ⟨dims, rfl, leads_reshape ht hs⟩
  | cut style drop counts axes => exact leads_cut ht he
  | permute axes => exact leads_permute ht he
  | rotate amount given first origin => exact leads_rotate ht hs.1 he
  | compress degrees isScalar given first origin room => exact leads_compress ht he
  | window offset dims =>
      obtain ⟨o, ds, ho, rfl, hf⟩ := hs
      cases he
      exact ⟨_, Link.map_fst_ofDims ds, leads_window ho hf⟩
  | select indices origin =>
      obtain ⟨o, ho, hi⟩ := hs
      exact leads_select ht ho hi he

end Step
end LazyApl
