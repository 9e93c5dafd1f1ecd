import LazyApl.Platform.Usual
import LazyApl.Proofs.Radices
import LazyApl.Proofs.Reindexing
import LazyApl.Proofs.Straying
import LazyApl.Proofs.WindowRendering
/-!
# Columns of radices

Encoding in a matrix of radices treats each of its columns on its own. The digits are laid out place
by place, and within a place column by column, so the digits of one column are the runs that lie at
equal distances: they are a column of the result as the radices are one of the matrix. Selecting the
column before or after the encoding gives the same array.
-/

namespace LazyApl

open Outcome

namespace Radix

/-- Of items in rows of so many runs of equal length, the runs of one column, from top to bottom. -/
structure IsColumn {α : Type} (rows columns run c : Nat) (xs ys : List α) : Prop where
  length_eq : ys.length = rows * run
  getElem?_eq : ∀ k < rows, ∀ l < run, ys[k * run + l]? = xs[(k * columns + c) * run + l]?

variable {α β : Type} {rows columns run c : Nat} {xs ys zs : List α} {rs vs : List Int}

theorem IsColumn.unique (hy : IsColumn rows columns run c xs ys)
    (hz : IsColumn rows columns run c xs zs) : ys = zs := by
  refine List.ext_getElem? fun i => ?_
  by_cases hi : i < rows * run
  · have hrun : 0 < run := Nat.pos_of_ne_zero fun h => by simp [h] at hi
    have hk : i / run < rows := Nat.div_lt_of_lt_mul (by rwa [Nat.mul_comm])
    have hl : i % run < run := Nat.mod_lt i hrun
    rw [← Nat.div_add_mod' i run, hy.getElem?_eq _ hk _ hl, hz.getElem?_eq _ hk _ hl]
  · rw [List.getElem?_eq_none (by rw [hy.length_eq]; omega),
      List.getElem?_eq_none (by rw [hz.length_eq]; omega)]

theorem isColumn_columnOf (hl : rs.length = rows * columns) (hc : c < columns) :
    IsColumn rows columns 1 c rs (columnOf rs rows columns c) := by
  refine ⟨by simp, fun k hk l hl' => ?_⟩
  obtain rfl : l = 0 := by omega
  have hplace : k * columns + c < rs.length := hl ▸ place_lt hk hc
  simp [columnOf, List.getElem?_range hk, List.getElem?_eq_getElem hplace]

theorem mem_of_mem_columnOf (hl : rs.length = rows * columns) (hc : c < columns) {r : Int}
    (hr : r ∈ columnOf rs rows columns c) : r ∈ rs := by
  obtain ⟨k, hk, rfl⟩ := List.mem_map.mp hr
  have hplace : k * columns + c < rs.length := hl ▸ place_lt (List.mem_range.mp hk) hc
  rw [List.getD_eq_getElem _ _ hplace]
  exact List.getElem_mem hplace

theorem isColumn_digitTable (hc : c < columns) :
    IsColumn rows columns vs.length c (digitTable rs rows columns vs)
      (placeByPlace (columnOf rs rows columns c) vs) := by
  constructor
  · simp [placeByPlace, List.length_flatMap]
  · intro k hk l hl
    have hv : vs[l]? = some vs[l] := List.getElem?_eq_getElem hl
    have hcolumn : k < (columnOf rs rows columns c).length := by rwa [length_columnOf]
    have hwidth : ∀ k ∈ List.range rows, ((List.range columns).flatMap fun c => vs.map fun v =>
        (digits (columnOf rs rows columns c) v).2.getD k 0).length = columns * vs.length := by
      simp [List.length_flatMap]
    have hplace : (k * columns + c) * vs.length + l =
        k * (columns * vs.length) + (c * vs.length + l) := by ring
    rw [getElem?_placeByPlace hcolumn hv, digitTable, hplace,
      getElem?_flatMap_of_length hwidth k (place_lt hc hl), List.getElem?_range hk,
      Option.bind_some, getElem?_flatMap_of_length (n := vs.length)
        (fun _ _ => List.length_map _) c hl, List.getElem?_range hc]
    simp [hv]

end Radix

namespace Selection

variable {o n m x : Int} {s : Shape} {z : IntArgument} {c d : List Int}

theorem Addresses.eq_of_whole {α : Type} {xs : List α}
    (h : Addresses o (xs.map fun _ => none) c d) : c = d := by
  induction xs generalizing c d with
  | nil =>
      cases h
      rfl
  | cons _ xs ih =>
      cases h with
      | cons htake hrest =>
          cases htake with
          | whole x => rw [ih hrest, List.singleton_append]

/-- A single number for the second axis leads to its column: the place in a run stays, and so does
the row. -/
theorem Names.of_column (hz : z.shape.get = .ok (.ofShape [])) (hx : z.ints.get = .ok [x])
    (hu : Shape.IsProper (n :: s)) (ht : Shape.IsProper (n :: m :: s)) {i j : Int}
    (hj : Shape.Holds (n :: s) j) (hi : Shape.Holds (n :: m :: s) i)
    (h : Names o (none :: some z :: s.map fun _ => none) (n :: s) (n :: m :: s) j i) :
    i = (j / s.size * m + (x - o)) * s.size + j % s.size := by
  have hwithin := Shape.coordinates_within hu hj
  have hj' := Shape.dot_coordinates hu hj
  have hi' := Shape.dot_coordinates ht hi
  unfold Names at h
  generalize Shape.coordinates (n :: s) j = c at h hwithin hj'
  generalize Shape.coordinates (n :: m :: s) i = d at h hi'
  cases h with
  | cons hfirst hrest =>
      cases hrest with
      | cons hsecond hrest =>
          cases hfirst with
          | whole k =>
              cases hsecond with
              | listed hu' hx' hown hv =>
                  obtain rfl := Extents.ofShape_inj (Except.ok.inj (hz.symm.trans hu'))
                  obtain rfl := Except.ok.inj (hx.symm.trans hx')
                  cases hown
                  obtain rfl := by simpa [Shape.position, Shape.horner] using hv
                  obtain rfl := hrest.eq_of_whole
                  rw [List.nil_append, List.singleton_append] at hwithin hj'
                  obtain ⟨-, hl⟩ := Shape.within_cons.mp hwithin
                  simp only [Shape.dot, Shape.strides, Shape.size_cons] at hj' hi'
                  obtain ⟨hdiv, hmod⟩ := Shape.div_mod_place hl.holds
                  rw [← hi', ← hj', hdiv, hmod]
                  ring

theorem shape_whole (s : Shape) : shape (.ofShape s) (s.map fun _ => none) = .ok (.ofShape s) := by
  induction s with
  | nil => rfl
  | cons n s ih =>
      change (do
        let rest ← shape (.ofShape s) (s.map fun _ => none)
        return [Number.int n] ++ rest) = _
      rw [ih]
      rfl

end Selection

namespace Item

variable {origin : Origin} {o n m x : Int} {s : Shape}

theorem selects_column (ho : origin.number = .ok (.int o)) (ht : Shape.IsProper (n :: m :: s))
    (hx : o ≤ x ∧ x < o + m) :
    Selects origin o (none :: some (int x) :: s.map fun _ => none) (n :: m :: s) (n :: s) := by
  have hindexes : Indexes o m (int x) := ⟨[], [x], rfl, rfl, Shape.isProper_nil, by simpa using hx⟩
  refine ⟨ho, ht, .cons (by simp) (.cons (by simpa using hindexes) ?_), ?_⟩
  · rw [List.forall₂_map_right_iff]
    exact List.forall₂_same.mpr fun _ _ _ hz => by cases hz
  · have hwhole := Selection.shape_whole s
    have harguments : arguments (s.map fun _ => none) = s.map fun _ => none := by
      simp [arguments]
    change (do
      let rest ← (do
        let rest ← Selection.shape (.ofShape s) (arguments (s.map fun _ => none))
        return [] ++ rest)
      return [Number.int n] ++ rest) = _
    rw [harguments, hwhole]
    rfl

end Item

namespace View

open Radix

variable {root : Root Item} {r s t : Shape} {v : View Item} {ns : List Int} {origin : Origin}
  {o : Int} {rows columns c : Nat}

theorem OffersInts.length_matrix (h : v.OffersInts [(rows : Int), columns] ns) :
    ns.length = rows * columns := by
  have := h.length_eq
  rw [Shape.size_cons, Shape.size_cons, Shape.size_nil, Int.mul_one] at this
  exact_mod_cast this

/-- Selecting a column of an array of whole numbers gives the numbers in that column. -/
theorem StandsOn.exists_select_column {run : Nat}
    (h : StandsOn root r v (rows :: columns :: s)) (hv : v.OffersInts (rows :: columns :: s) ns)
    (hrun : s.size = run) (ho : origin.number = .ok (.int o)) (hc : c < columns) :
    ∃ w ms, Item.select (.view v) (none :: some (.int (c + o)) :: s.map fun _ => none) origin =
        .ok w ∧ w.etype = v.etype ∧ w.OffersInts (rows :: s) ms ∧
      IsColumn rows columns run c ns ms := by
  have ht := hv.proper
  have hsel := Item.selects_column (x := c + o) ho ht (by omega)
  obtain ⟨w, f, hw, hstands, -, hoffers, hnamed⟩ := h.select_spec hsel hv.offers
  obtain rfl := Except.ok.inj
    ((Item.select_eq origin hsel.inRange.length_eq.symm hv.offers.shape).symm.trans hw)
  have hu := (hstands.stands.keeps Item.fillOf).proper
  choose! p hp hnames hcell using hnamed
  have hlength : ((upTo (Shape.size (rows :: s))).map fun j => ns.getD (p j).toNat 0).length =
      rows * run := by
    rw [List.length_map, length_upTo, Shape.size_cons, hrun, ← Nat.cast_mul, Int.toNat_natCast]
  refine ⟨_, (upTo (Shape.size (rows :: s))).map fun j => ns.getD (p j).toNat 0, hw,
    etype_under_of_keepsType rfl, ⟨hu, ?_, hoffers.congr fun j hj => ?_⟩, hlength,
    fun k hk l hl => ?_⟩
  · rw [hlength, Shape.size_cons, hrun, Nat.cast_mul]
  · rw [hcell j hj, List.getD_eq_getElem?_getD (l := List.map _ _), getElem?_map_upTo _ hj]
    rfl
  · have hj : Shape.Holds (rows :: s) ((k * run + l : Nat) : Int) := by
      rw [Shape.Holds, Shape.size_cons, hrun]
      exact ⟨Int.natCast_nonneg _, by exact_mod_cast place_lt hk hl⟩
    have hplace := Selection.Names.of_column (x := c + o) rfl rfl hu ht hj (hp _ hj) (by
      simpa [Item.arguments] using hnames _ hj)
    have hp' : p ((k * run + l : Nat) : Int) = (((k * columns + c) * run + l : Nat) : Int) := by
      obtain ⟨hdiv, hmod⟩ := Shape.div_mod_place (k := k) (l := l) (n := run) (by omega)
      rw [hplace, hrun]
      push_cast
      rw [hdiv, hmod]
      ring
    have hin := hp _ hj
    have hlt : (k * columns + c) * run + l < ns.length := by
      have hlength := hv.length_eq
      rw [hp', Shape.Holds, ← hlength] at hin
      exact_mod_cast hin.2
    have hget := getElem?_map_upTo (fun j => ns.getD (p j).toNat 0) hj
    rw [Int.toNat_natCast, hp', Int.toNat_natCast, List.getD_eq_getElem _ _ hlt] at hget
    rw [hget, List.getElem?_eq_getElem hlt]

theorem IsComputed.generator_under_eq_error (hv : v.IsComputed) (hs : v.shape = .ok (.ofShape t))
    (ht : t.IsProper) {x : Step} {u : Shape} {l : Link} {e : Fault} (hx : x.IsSound t)
    (hu : x.shapeOver (.ofShape t) = .ok (.ofShape u)) (hl : x.linkOver (.ofShape t) = .ok l)
    (he : v.generator = .error e) : (v.under x).generator = .error e := by
  have hstands := hv.standsOn hs ht
  obtain ⟨facts, rfl⟩ := hv
  have hlinks : (computed facts).links = .ok [] := rfl
  obtain ⟨ms, hms, -⟩ := hstands.links_under hx hu hl hlinks
  have hroot : facts.generator .now = .error e := he
  change ((computed facts).under x).links >>= (fun _ => facts.generator .now >>= _) = .error e
  rw [hms, hroot]
  rfl

theorem IsReady.render_eq_error_of_generator (h : v.IsReady) (hs : v.shape = .ok (.ofShape t))
    (hne : ¬ ∃ g, v = ofGrid g) {e : Fault} (he : v.generator = .error e) :
    (Item.view v).render = .error e := by
  have hcells : (Item.view v).generatorOf = .error e := he
  have hitems : (Item.view v).items = .error e := by
    rw [Item.items, hcells]
    rfl
  exact h.render_eq_error hs hne hitems

end View

namespace Item

open Radix

variable {R V : Item} {s t : Shape} {rs vs ns : List Int}

section

variable [Platform]

theorem isComputed_encode : (encode R V).IsComputed := ⟨_, rfl⟩

theorem isReady_encode (hR : R.lift.OffersInts t rs) (hV : V.lift.OffersInts s vs) :
    (encode R V).IsReady :=
  View.isReady_of_computed rfl (encode_shape hR.hasInts hV.hasInts) (hR.proper.append hV.proper) rfl

theorem etype_encode_congr {R' : Item} (h : R.lift.etype = R'.lift.etype) :
    (encode R V).etype = (encode R' V).etype := by
  simp only [encode, View.whole, View.etype_computed, Lazy.get_delay, h]

/-- Where there is room for the digits, they are the items. -/
theorem offersInts_encode {size : Nat} (hR : R.lift.OffersInts t rs) (h0 : ∀ r ∈ rs, 0 ≤ r)
    (hV : V.lift.OffersInts s vs) (hroom : Platform.room.times 1 (Shape.size (t ++ s)) = .ok size)
    (hns : fillCells (t.headD 1).toNat (Shape.size (t.drop 1)).toNat (rs.map int) (vs.map int)
      (Array.replicate (Shape.size (t ++ s)).toNat (int 0)) = .ok (ns.map int).toArray)
    (hl : (ns.length : Int) = Shape.size (t ++ s)) :
    (encode R V).OffersInts (t ++ s) ns := by
  obtain ⟨a, ha⟩ := hR.offers.etype
  obtain ⟨b, hb⟩ := hV.offers.etype
  have hetype : ∃ e, (encode R V).etype = .ok e := by
    simp only [encode, View.whole, View.etype_computed, Lazy.get_delay, ha, hb, bind, Except.bind,
      pure, Except.pure]
    split <;> exact ⟨_, rfl⟩
  have hcontent : (encode R V).HasContent (ns.map int) := by
    rw [View.HasContent, encode_generator_ints hR.hasInts h0 hV.hasInts, hroom, hns]
    rfl
  have hsettled : ∀ x ∈ ns.map int, x.settle = .ok x := by
    intro x hx
    obtain ⟨n, -, rfl⟩ := List.mem_map.mp hx
    rfl
  have hcells := hcontent.cells (t := t ++ s) (by rw [List.length_map, hl]) hsettled
  refine ⟨hR.proper.append hV.proper, hl, encode_shape hR.hasInts hV.hasInts, hetype, ?_⟩
  simpa only [List.getD_map] using hcells

variable {rows columns c : Nat} {origin : Origin} {o : Int}

theorem offersInts_encode_matrix {size : Nat} (hR : R.lift.OffersInts [(rows : Int), columns] rs)
    (h0 : ∀ r ∈ rs, 0 ≤ r) (hV : V.lift.OffersInts s vs)
    (hroom : Platform.room.times 1 (Shape.size (rows :: columns :: s)) = .ok size) :
    (encode R V).OffersInts (rows :: columns :: s) (digitTable rs rows columns vs) := by
  have hsize : (Shape.size (rows :: columns :: s)).toNat = rows * (columns * vs.length) := by
    rw [Shape.size_cons, Shape.size_cons, ← hV.length_eq]
    norm_cast
  have hcells := fillCells_ints hR.length_matrix vs hsize
  refine offersInts_encode hR h0 hV hroom (by simpa using hcells) ?_
  simp [digitTable, List.length_flatMap, hV.length_eq]

theorem offersInts_encode_vector {size : Nat} (hR : R.lift.OffersInts [(rs.length : Int)] rs)
    (h0 : ∀ r ∈ rs, 0 ≤ r) (hV : V.lift.OffersInts s vs)
    (hroom : Platform.room.times 1 (Shape.size (rs.length :: s)) = .ok size) :
    (encode R V).OffersInts (rs.length :: s) (placeByPlace rs vs) := by
  have hsize : (Shape.size (rs.length :: s)).toNat = rs.length * vs.length := by
    rw [Shape.size_cons, ← hV.length_eq]
    norm_cast
  refine offersInts_encode hR h0 hV hroom (by simpa using fillCells_vector rs vs hsize) ?_
  simp [placeByPlace, List.length_flatMap, hV.length_eq]

/-- What a selection of a column of digits answers. -/
theorem exists_select_encode (hR : R.lift.OffersInts [(rows : Int), columns] rs)
    (hV : V.lift.OffersInts s vs) (ho : origin.number = .ok (.int o)) (hc : c < columns) :
    ∃ w, select (view (encode R V)) (none :: some (int (c + o)) :: s.map fun _ => none) origin =
        .ok w ∧ w.shape = .ok (.ofShape (rows :: s)) ∧ w.etype = (encode R V).etype ∧
      w.prototype = .ok (int 0) ∧ w.IsReady ∧ (¬ ∃ g, w = View.ofGrid g) ∧
      (∀ e, (encode R V).generator = .error e → w.generator = .error e) ∧
      ∀ ns, (encode R V).OffersInts (rows :: columns :: s) ns →
        ∃ ms, w.OffersInts (rows :: s) ms ∧ IsColumn rows columns vs.length c ns ms := by
  have hshape := encode_shape hR.hasInts hV.hasInts
  have ht := hR.proper.append hV.proper
  have hsel := selects_column (x := c + o) ho ht (by omega)
  have hsound : (Step.select (arguments (none :: some (int (c + o)) :: s.map fun _ => none))
    origin).IsSound (rows :: columns :: s) := ⟨o, ho, inRange_asArguments hsel.inRange⟩
  have hselect := select_eq origin hsel.inRange.length_eq.symm hshape
  have hstands := isComputed_encode.standsOn hshape ht
  have habove := hstands.above hsound hsel.shape_eq
  have hroot : (⟨(encode R V).root, []⟩ : View Item).IsReady := isReady_encode hR hV
  obtain ⟨l, hl, -⟩ := hsel.link_spec
  refine ⟨_, hselect, habove.shape_eq, View.etype_under_of_keepsType rfl, View.prototype_under rfl,
    habove.isReady hroot, View.under_ne_ofGrid _ _, fun e he => ?_, fun ns hns => ?_⟩
  · exact View.IsComputed.generator_under_eq_error isComputed_encode hshape ht hsound hsel.shape_eq
      hl he
  · obtain ⟨w, ms, hw, -, hms, hcolumn⟩ :=
      hstands.exists_select_column hns hV.length_eq.symm ho hc
    obtain rfl := Except.ok.inj (hselect.symm.trans hw)
    exact ⟨ms, hms, hcolumn⟩

/-- Selecting a column of the second axis of what has been encoded in a matrix of radices gives what
is encoded in that column of radices. The two arrays have the same shape, element type and fill, and
they render to the same array: the digits of all values in the column, place by place. Should there
be no room for the digits in all columns, they are refused, and so is the selection. -/
theorem encode_column {g : Grid Item} (hR : R.lift.ShownAs g)
    (hrs : R.lift.OffersInts [(rows : Int), columns] rs) (h0 : ∀ r ∈ rs, 0 ≤ r)
    (hV : V.lift.OffersInts s vs) (ho : origin.number = .ok (.int o)) (hc : c < columns) :
    ∃ column selected, select R [none, some (int (c + o))] origin = .ok column ∧
      column.OffersInts [(rows : Int)] (columnOf rs rows columns c) ∧
      select (view (encode R V)) (none :: some (int (c + o)) :: s.map fun _ => none) origin =
        .ok selected ∧
      selected.shape = (encode (view column) V).shape ∧
      selected.etype = (encode (view column) V).etype ∧
      selected.prototype = (encode (view column) V).prototype ∧
      (∀ k, Platform.room.times 1 (Shape.size (rows :: columns :: s)) = .ok k → ∃ digits,
        digits = Grid.mk (rows :: s) ((placeByPlace (columnOf rs rows columns c) vs).map int)
          (if Shape.size (rows :: s) = 0 then some (int 0) else none) ∧
        (view selected).render = .ok (.array digits) ∧
        (view (encode (view column) V)).render = .ok (.array digits)) ∧
      ∀ e, Platform.room.times 1 (Shape.size (rows :: columns :: s)) = .error e →
        (view selected).render = .error e ∧ (view (encode R V)).render = .error e := by
  obtain ⟨root, r, f, -, hstands, hf, -⟩ := hR.presents.exists_ready_yields
  have hg : g.shape = [(rows : Int), (columns : Int)] :=
    Extents.ofShape_inj (Except.ok.inj (hf.shape.symm.trans hrs.offers.shape))
  rw [hg] at hstands
  have hl := hrs.length_matrix
  -- the column of the radices
  obtain ⟨column, ms, hselect, hetype, hcolumn, hms⟩ :=
    hstands.exists_select_column hrs Shape.size_nil ho hc
  obtain rfl := hms.unique (isColumn_columnOf hl hc)
  have hRn : R ≠ nothing := by
    rintro rfl
    have hnothing : nothing.lift.shape = .ok (.ofShape []) := rfl
    cases Extents.ofShape_inj (Except.ok.inj (hnothing.symm.trans hrs.offers.shape))
  rw [← select_lift hRn] at hselect
  -- the column of what has been encoded
  obtain ⟨selected, hselected, hshape, htype, hfill, hready, hne, herror, hdigits⟩ :=
    exists_select_encode hrs hV ho hc
  have hmatrix := encode_shape hrs.hasInts hV.hasInts
  have hlift : (view column).lift.OffersInts [(rows : Int)] (columnOf rs rows columns c) := hcolumn
  have hcolumn' : (view column).lift.OffersInts [((columnOf rs rows columns c).length : Int)]
      (columnOf rs rows columns c) := by
    rwa [length_columnOf]
  have hown := encode_shape hlift.hasInts hV.hasInts
  refine ⟨column, selected, hselect, hcolumn, hselected, hshape.trans hown.symm,
    htype.trans (etype_encode_congr hetype.symm), hfill, fun k hroom => ?_, fun e hroom => ?_⟩
  · obtain ⟨ms, hms, hcells⟩ := hdigits _ (offersInts_encode_matrix hrs h0 hV hroom)
    obtain rfl := hcells.unique (isColumn_digitTable hc)
    obtain ⟨k', hroom'⟩ : ∃ k', Platform.room.times 1 (Shape.size
        ((columnOf rs rows columns c).length :: s)) = .ok k' := by
      have hsize := Shape.size_nonneg hV.proper
      have hcolumns : 1 ≤ (columns : Int) := by omega
      refine Room.exists_times_of_le ?_ (Shape.size_nonneg (hcolumn'.proper.append hV.proper)) hroom
      rw [length_columnOf, Shape.size_cons, Shape.size_cons, Shape.size_cons]
      exact Int.mul_le_mul_of_nonneg_left (by nlinarith) (Int.natCast_nonneg rows)
    have hown := offersInts_encode_vector hcolumn'
      (fun r hr => h0 r (mem_of_mem_columnOf hl hc hr)) hV hroom'
    rw [length_columnOf] at hown
    exact ⟨_, rfl, hms.render hready hne hfill,
      hown.render (isReady_encode hcolumn' hV) isComputed_encode.ne_ofGrid rfl⟩
  · have hgen : (encode R V).generator = .error e := by
      rw [encode_generator_ints hrs.hasInts h0 hV.hasInts, List.cons_append,
        List.singleton_append, hroom]
      rfl
    exact ⟨hready.render_eq_error_of_generator hshape hne (herror e hgen),
      (isReady_encode hrs hV).render_eq_error_of_generator hmatrix isComputed_encode.ne_ofGrid hgen⟩

end

/-- Two columns of radices. The first digit of the one may be any number. -/
def twoScales : Item := array ⟨[2, 2], [int 0, int 2, int 10, int 3], none⟩

open scoped Usual in
/-- The second column is selected before and after two numbers are encoded. -/
theorem twoScales_encode_column :
    ∃ column selected digits, select twoScales [none, some (int 1)] (.int 0) = .ok column ∧
      select (view (encode twoScales (ints [7, -1]))) [none, some (int 1), none] (.int 0) =
        .ok selected ∧
      digits = Grid.mk [2, 2] [int 0, int 1, int 1, int 2] none ∧
      (view selected).render = .ok (.array digits) ∧
      (view (encode (view column) (ints [7, -1]))).render = .ok (.array digits) := by
  have proper : Shape.IsProper [2, 2] := by simp [Shape.IsProper]
  have ready : (View.ofGrid (Grid.of [2, 2] ([0, 2, 10, 3].map int) none)).IsReady :=
    View.isReady_ofNumbers proper rfl
  have matrix : twoScales.lift.ShownAs ⟨[2, 2], [int 0, int 2, int 10, int 3], none⟩ :=
    View.shownAs_ofGrid ready proper
  have radices : twoScales.lift.OffersInts [(2 : Nat), (2 : Nat)] [0, 2, 10, 3] :=
    View.offersInts_ofGrid [0, 2, 10, 3] proper rfl
  have values : (ints [7, -1]).lift.OffersInts [2] [7, -1] :=
    View.offersInts_ofGrid [7, -1] (by simp [Shape.IsProper]) rfl
  have zero : Scalar.number (.int 0) = .ok (.int 0) := rfl
  have room :
      Platform.room.times 1 (Shape.size [((2 : Nat) : Int), ((2 : Nat) : Int), 2]) = .ok 8 :=
    Room.times_eq_ok (by decide) (by simp [Room.fits, twoTo])
  obtain ⟨column, selected, hcolumn, -, hselected, -, -, -, hroom, -⟩ :=
    encode_column matrix radices (by simp) values zero (by decide : 1 < 2)
  obtain ⟨digits, rfl, hrender, hrender'⟩ := hroom 8 room
  exact ⟨column, selected, _, hcolumn, hselected, rfl, hrender, hrender'⟩

end Item
end LazyApl
