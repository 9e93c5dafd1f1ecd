import LazyApl.Proofs.Assigning
import LazyApl.Proofs.Reading
import LazyApl.Proofs.Sources
/-!
# Indices that are selected themselves

To select from what has been selected from a vector is to select once, by the indices that are
selected from the first ones. The two selections on the one side are links of one tower, and their
coordinates are counted along the axes of the first indices. On the other side the first indices are
an array of numbers, which is selected from and then read again. Both lead to the same positions of
the vector.
-/
namespace LazyApl

open Outcome

namespace Selection

variable {o n : Int} {z : IntArgument} {u : Shape} {vs : List Int}

theorem getElem?_of_names (hup : u.IsProper) (hn : Shape.IsProper [n])
    (hu : z.shape.get = .ok (.ofShape u)) (hvs : z.ints.get = .ok vs) {j i : Int}
    (hj : u.Holds j) (hi : Shape.Holds [n] i) (h : Names o [some z] u [n] j i) :
    vs[j.toNat]? = some (i + o) := by
  have hposition := Shape.position_coordinates hup hj
  have hplace := Shape.dot_coordinates hn hi
  unfold Names at h
  generalize u.coordinates j = c at h hposition
  generalize Shape.coordinates [n] i = d at h hplace
  cases h with
  | cons htake hrest =>
      cases hrest
      cases htake with
      | @listed _ _ _ _ value hu' hvs' _ hlisted =>
          obtain rfl := Extents.ofShape_inj (Except.ok.inj (hu.symm.trans hu'))
          obtain rfl := Except.ok.inj (hvs.symm.trans hvs')
          rw [List.append_nil] at hposition
          rw [hposition] at hlisted
          have hvalue : value - o = i := by simpa [Shape.dot, Shape.strides] using hplace
          rw [hlisted, ← hvalue, Int.sub_add_cancel]

/-- Two indices of a vector that list the same number, each in one of its cells, name the same
position there. -/
theorem Names.eq_of_listed {a : IntArgument} {t : Shape} {vs' : List Int} {j j' i i' : Int}
    (hup : u.IsProper) (htp : t.IsProper) (hn : Shape.IsProper [n])
    (hu : z.shape.get = .ok (.ofShape u)) (hvs : z.ints.get = .ok vs)
    (ht : a.shape.get = .ok (.ofShape t)) (hvs' : a.ints.get = .ok vs') (hj : u.Holds j)
    (hj' : t.Holds j') (hi : Shape.Holds [n] i) (hi' : Shape.Holds [n] i')
    (h : Names o [some z] u [n] j i) (h' : Names o [some a] t [n] j' i')
    (heq : vs'[j'.toNat]? = vs[j.toNat]?) : i = i' := by
  have hlisted := getElem?_of_names hup hn hu hvs hj hi h
  have hlisted' := getElem?_of_names htp hn ht hvs' hj' hi' h'
  rw [heq, hlisted] at hlisted'
  exact (Int.add_left_inj o).mp (Option.some.inj hlisted')

end Selection

namespace Item

variable {v : View Item} {x : Item} {t u : Shape} {f f' : Int → Item} {ns : List Int}
  {role : String} {origin : Origin} {o n : Int} {indices : List (Option Item)}

theorem exists_asInts_selected (h : v.Offers t f) (hns : (view v).asInts role = .ok ns)
    {w : View Item} (hw : w.Offers u f') {p : Int → Int}
    (hp : ∀ j, u.Holds j → t.Holds (p j) ∧ f' j = f (p j)) :
    ∃ ks, (view w).asInts role = .ok ks ∧ ks.length = u.size.toNat ∧
      ∀ j, u.Holds j → ks[j.toNat]? = ns[(p j).toNat]? := by
  obtain ⟨_, hread⟩ := getElem?_asInts h hns
  have hwhole : ∀ j, u.Holds j → ∃ k, (f' j).asWhole role = .ok k := by
    intro j hj
    obtain ⟨hpj, heq⟩ := hp j hj
    obtain ⟨k, _, hk⟩ := hread (p j) hpj
    exact ⟨k, heq ▸ hk⟩
  obtain ⟨ks, hks⟩ := exists_asInts hw hwhole
  obtain ⟨hlen, hread'⟩ := getElem?_asInts hw hks
  refine ⟨ks, hks, hlen, fun j hj => ?_⟩
  obtain ⟨hpj, heq⟩ := hp j hj
  obtain ⟨k, hk, hwhole⟩ := hread (p j) hpj
  obtain ⟨k', hk', hwhole'⟩ := hread' j hj
  rw [heq, hwhole] at hwhole'
  rw [hk, hk', Except.ok.inj hwhole']

theorem indexes_selected {w : View Item} {ks : List Int} {p : Int → Int}
    (hs : w.shape = .ok (.ofShape u)) (hu : u.IsProper) (hks : (view w).asInts "index" = .ok ks)
    (hlen : ks.length = u.size.toNat) (heq : ∀ j, u.Holds j → ks[j.toNat]? = ns[(p j).toNat]?)
    (hb : ∀ k ∈ ns, o ≤ k ∧ k < o + n) : (view w).Indexes o n := by
  refine ⟨u, ks, hs, hks, hu, fun k hk => ?_⟩
  obtain ⟨m, hm, rfl⟩ := List.mem_iff_getElem.mp hk
  have hj : u.Holds m := by
    unfold Shape.Holds
    omega
  have hlisted := heq m hj
  rw [Int.toNat_natCast, List.getElem?_eq_getElem hm] at hlisted
  exact hb _ (List.mem_of_getElem? hlisted.symm)

theorem selects_single (ho : origin.number = .ok (.int o)) (hn : Shape.IsProper [n])
    (hx : x.Indexes o n) (hu : (view x.lift).shapeOf = .ok (.ofShape u)) :
    Selects origin o [some x] [n] u := by
  refine ⟨ho, hn, by simpa using hx, ?_⟩
  change ((view x.lift).shapeOf >>= fun own => Except.ok (own ++ [])) = _
  rw [hu]
  exact congrArg Except.ok (List.append_nil _)

theorem select_lift (hx : x ≠ nothing) :
    select x indices origin = select (.view x.lift) indices origin := by
  cases x with
  | scalar s =>
      cases s with
      | nothing => exact absurd rfl hx
      | _ => rfl
  | _ => rfl

end Item

namespace View

variable {root : Root Item} {r t u : Shape} {v w w' : View Item} {f f' : Int → Option Int}
  {origin : Origin} {o n : Int} {indices : List (Option Item)}

theorem StandsOn.comesFrom_select (h : StandsOn root r v t)
    (hs : Item.Selects origin o indices t u) :
    ∃ f, ComesFrom root r t u (v.under (.select (Item.arguments indices) origin)) v f ∧
      ∀ j, u.Holds j → ∃ i, t.Holds i ∧ f j = some i ∧
        Selection.Names o (Item.arguments indices) u t j i := by
  obtain ⟨l, hl, _, hnames⟩ := hs.link_spec
  exact ⟨_, h.comesFrom_under (y := .select (Item.arguments indices) origin)
    ⟨o, hs.origin_eq, Item.inRange_asArguments hs.inRange⟩ hs.shape_eq hl rfl, hnames⟩

/-- To select from what an array of indices selects from a vector is to select from the vector once,
by what is selected in the same way from the array of indices. -/
theorem ShownAs.select_select {g gx : Grid Item} {x : Item} (hv : v.ShownAs g)
    (hg : g.shape = [n]) (hx : x.lift.ShownAs gx) (ho : origin.number = .ok (.int o))
    (hxn : x.Indexes o n)
    (hi : List.Forall₂ (fun m y => ∀ z ∈ y, Item.Indexes o m z) gx.shape indices) :
    ∃ once twice own w y, Item.select (.view v) [some x] origin = .ok once ∧
      Item.select (.view once) indices origin = .ok twice ∧
      Item.select x indices origin = .ok own ∧
      Item.select (.view v) [some (.view own)] origin = .ok w ∧
      (Item.view twice).render = .ok y ∧ (Item.view w).render = .ok y := by
  obtain ⟨root, r, f, hs, hf, _⟩ := hv.exists_yields
  obtain ⟨_, _, fx, hsx, hfx, _⟩ := hx.exists_yields
  rw [hg] at hs hf
  have hfirst := Item.selects_single ho hf.isProper hxn hfx.shape
  obtain ⟨u, hrest⟩ := Item.exists_selects ho hfx.isProper hi
  obtain ⟨own, fown, hown, hstands, _, hoffers, hnamed⟩ := hsx.select_spec hrest hfx.toOffers
  choose! p hp hnames hpeq using hnamed
  -- the numbers that are read from the selected indices are those at the positions named
  obtain ⟨_, ns, _, hns, _, hbounds⟩ := hxn
  have hread : (Item.view x.lift).asInts "index" = .ok ns := Item.asInts_lift x _ ▸ hns
  obtain ⟨ks, hks, hlen, hkeq⟩ := Item.exists_asInts_selected hfx.toOffers hread hoffers
    fun j hj => ⟨hp j hj, hpeq j hj⟩
  have hup := (hstands.stands.keeps Item.fillOf).proper
  have hownIndexes : (Item.view own).Indexes o n :=
    Item.indexes_selected hoffers.shape hup hks hlen hkeq hbounds
  have hsecond := Item.selects_single ho hf.isProper hownIndexes hoffers.shape
  obtain ⟨f₁, hf₁, hnames₁⟩ := hs.comesFrom_select hfirst
  obtain ⟨f₂, hf₂, hnames₂⟩ := hf₁.standsOn.comesFrom_select hrest
  obtain ⟨f₃, hf₃, hnames₃⟩ := hs.comesFrom_select hsecond
  have heq : ∀ j, u.Holds j → (f₂ j).bind f₁ = f₃ j := by
    intro j hj
    obtain ⟨i, hi, hfi, hnamed⟩ := hnames₂ j hj
    obtain ⟨k, hk, hfk, hnamedk⟩ := hnames₁ i hi
    obtain ⟨k', hk', hfk', hnamedk'⟩ := hnames₃ j hj
    obtain rfl : p j = i := (hnames j hj).unique hfx.isProper hnamed (hp j hj) hi
    have hsame : k = k' :=
      hnamedk.eq_of_listed (z := x.asArgument "index") (a := (Item.view own).asArgument "index")
        hfx.isProper hup hf.isProper hfx.shape hns hoffers.shape hks hi hj hk hk' hnamedk'
        (hkeq j hj)
    rw [hfi, Option.bind_some, hfk, hfk', hsame]
  have htwice := hf₁.trans hf₂
  have hx0 : x ≠ .nothing := by
    rintro rfl
    cases hns
  have hetype : ((v.under (.select (Item.arguments [some x]) origin)).under
      (.select (Item.arguments indices) origin)).etype = v.etype := by
    rw [etype_under_of_keepsType rfl, etype_under_of_keepsType rfl]
  obtain ⟨y, hy⟩ := htwice.exists_render hs hf hv.fill (hetype ▸ hf.etype) (under_ne_ofGrid _ _)
  refine ⟨_, _, own, _, y, Item.select_eq origin rfl hs.shape_eq,
    Item.select_eq origin hrest.inRange.length_eq.symm hf₁.standsOn.shape_eq,
    (Item.select_lift hx0).trans hown, Item.select_eq origin rfl hs.shape_eq, hy,
    htwice.renders_same hf₃ heq ?_ (under_ne_ofGrid _ _) (under_ne_ofGrid _ _) hy⟩
  rw [hetype, etype_under_of_keepsType rfl]

def tens : View Item := ofGrid (Grid.of [3] ([10, 20, 30].map .int) none)

/-- The second column of a square of indices selects from the numbers what is in the second column
of the square that the indices select. -/
theorem tens_select_select :
    ∃ once twice own w y,
      Item.select (.view tens) [some (.array (Grid.of [2, 2] ([0, 2, 2, 1].map .int) none))]
        (.int 0) = .ok once ∧
      Item.select (.view once) [none, some (.ints [1])] (.int 0) = .ok twice ∧
      Item.select (.array (Grid.of [2, 2] ([0, 2, 2, 1].map .int) none)) [none, some (.ints [1])]
        (.int 0) = .ok own ∧
      Item.select (.view tens) [some (.view own)] (.int 0) = .ok w ∧
      (Item.view twice).render = .ok y ∧ (Item.view w).render = .ok y := by
  have three : Shape.IsProper [3] := by simp [Shape.IsProper]
  have square : Shape.IsProper [2, 2] := by simp [Shape.IsProper]
  have numbers : tens.ShownAs (Grid.of [3] ([10, 20, 30].map .int) none) :=
    shownAs_ofGrid (isReady_ofNumbers three rfl) three
  have listed : (Item.array (Grid.of [2, 2] ([0, 2, 2, 1].map .int) none)).Indexes 0 3 :=
    ⟨[2, 2], [0, 2, 2, 1], rfl, rfl, square, by simp⟩
  have second : (Item.ints [1]).Indexes 0 2 :=
    ⟨[1], [1], rfl, rfl, by simp [Shape.IsProper], by simp⟩
  exact numbers.select_select (x := .array (Grid.of [2, 2] ([0, 2, 2, 1].map .int) none)) rfl
    (shownAs_ofGrid (isReady_ofNumbers square rfl) square) rfl listed
    (.cons (by simp) (.cons (by simpa using second) .nil))

end View
end LazyApl
