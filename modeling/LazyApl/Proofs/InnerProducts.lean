import LazyApl.Platform.Usual
import LazyApl.Proofs.Radices
/-!
# Decoding is an inner product

Decoding runs along the last axis of the radices and the first axis of the digits. A cell of the
result takes a vector of radices and a vector of digits; one of a single item, which is also what a
scalar has, is repeated to the length of the other. So one linear position gives the row and the
column, and how far apart the items of a vector lie depends on whether its axis is extended.
-/

namespace LazyApl

open Outcome

namespace Shape

variable {s t : Shape} {p q : List Int} {k : Int}

theorem dot_last (hp : p.length = s.dropLast.length) (hk : 0 ≤ k ∧ k < s.getLastD 1) :
    dot (p ++ [k]) (strides s) = dot p (strides s.dropLast) * s.getLastD 1 + k := by
  rcases List.eq_nil_or_concat s with rfl | ⟨a, n, rfl⟩
  · obtain rfl := List.length_eq_zero_iff.mp hp
    obtain rfl : k = 0 := by
      rw [List.getLastD_nil] at hk
      omega
    simp [dot, strides]
  · rw [List.concat_eq_append, List.dropLast_concat] at hp ⊢
    rw [dot_append_strides hp, List.getLastD_concat]
    simp [dot, strides]

theorem dot_first (hq : q.length = (t.drop 1).length) (hk : 0 ≤ k ∧ k < t.headD 1) :
    dot (k :: q) (strides t) = k * size (t.drop 1) + dot q (strides (t.drop 1)) := by
  cases t with
  | nil =>
      obtain rfl := List.length_eq_zero_iff.mp hq
      obtain rfl : k = 0 := by
        rw [List.headD_nil] at hk
        omega
      simp [dot, strides]
  | cons n t => rfl

theorem Within.holds_last (hp : Within s.dropLast p) (hk : 0 ≤ k ∧ k < s.getLastD 1) :
    Holds s (dot (p ++ [k]) (strides s)) := by
  rcases List.eq_nil_or_concat s with rfl | ⟨a, n, rfl⟩
  · cases hp
    simp [Holds, dot, strides]
  · rw [List.concat_eq_append] at hp hk ⊢
    rw [List.dropLast_concat] at hp
    rw [List.getLastD_concat] at hk
    have hwithin : Within (a ++ [n]) (p ++ [k]) :=
      List.rel_append hp (within_cons.mpr ⟨hk, within_nil⟩)
    exact hwithin.holds

theorem Within.holds_first (hq : Within (t.drop 1) q) (hk : 0 ≤ k ∧ k < t.headD 1) :
    Holds t (dot (k :: q) (strides t)) := by
  cases t with
  | nil => simp [Holds, dot, strides]
  | cons n t => exact (within_cons.mpr ⟨hk, hq⟩ : Within (n :: t) (k :: q)).holds

theorem IsProper.getLastD_nonneg (hs : s.IsProper) : 0 ≤ s.getLastD 1 := by
  rcases List.eq_nil_or_concat s with rfl | ⟨a, n, rfl⟩
  · simp
  · rw [List.concat_eq_append, List.getLastD_concat]
    exact hs n (by simp)

theorem IsProper.headD_nonneg (ht : t.IsProper) : 0 ≤ t.headD 1 := by
  cases t with
  | nil => simp
  | cons n t => exact ht n List.mem_cons_self

end Shape

namespace Radix

/-- Two axes go together if they are of one length, or one of them has a single position. -/
def Conform (last first : Int) : Prop := last = first ∨ last = 1 ∨ first = 1

instance (last first : Int) : Decidable (Conform last first) :=
  inferInstanceAs (Decidable (_ ∨ _))

/-- The length that both axes are extended to. -/
def commonLength (last first : Int) : Int := if last = 1 then first else last

theorem getLastD_ofShape (s : Shape) : (Extents.ofShape s).getLastD 1 = .int (s.getLastD 1) := by
  rcases List.eq_nil_or_concat s with rfl | ⟨a, n, rfl⟩
  · rfl
  · simp [Extents.ofShape]

theorem headD_ofShape (t : Shape) : (Extents.ofShape t).headD 1 = .int (t.headD 1) := by
  cases t <;> rfl

variable {s t : Shape} {xs ys p q : List Int} {last first n k : Int}

theorem common_ofShape (hs : s.IsProper) (ht : t.IsProper)
    (h : Conform (s.getLastD 1) (t.headD 1)) :
    common (.ofShape s) (.ofShape t) = .ok (.int (commonLength (s.getLastD 1) (t.headD 1))) := by
  have hlast := hs.getLastD_nonneg
  have hfirst := ht.headD_nonneg
  rw [common, getLastD_ofShape, headD_ofShape]
  generalize s.getLastD 1 = last at *
  generalize t.headD 1 = first at *
  by_cases hone : last = 1 ∨ first = 1
  · by_cases hzero : last = 0 ∨ first = 0
    · have hlength : commonLength last first = 0 := by
        unfold commonLength
        split <;> omega
      simp [Number.isOne, hone, hzero, hlength, pure, Except.pure]
    · have hlength : commonLength last first = max last first := by
        unfold commonLength
        split <;> omega
      simp [Number.isOne, hone, hzero, hlength]
  · obtain rfl : last = first := by
      unfold Conform at h
      omega
    have hne : last ≠ 1 := fun h1 => hone (.inl h1)
    simp [Number.isOne, hne, commonLength, pure, Except.pure]

theorem common_eq_error (h : ¬ Conform (s.getLastD 1) (t.headD 1)) :
    common (.ofShape s) (.ofShape t) =
      .error (.length .radicesAndDigits [Extents.ofShape s, Extents.ofShape t]) := by
  rw [common, getLastD_ofShape, headD_ofShape]
  generalize s.getLastD 1 = last at *
  generalize t.headD 1 = first at *
  obtain ⟨hne, hlast, hfirst⟩ : last ≠ first ∧ last ≠ 1 ∧ first ≠ 1 := by
    simpa [Conform, not_or] using h
  simp [Number.isOne, hne, hlast, hfirst]

theorem Conform.along_lt (h : Conform last first) (hk : 0 ≤ k ∧ k < commonLength last first) :
    (0 ≤ along last k ∧ along last k < last) ∧ 0 ≤ along first k ∧ along first k < first := by
  unfold Conform at h
  unfold commonLength at hk
  unfold along
  split at hk <;> split <;> split <;> omega

/-- The vector along the last axis at coordinates on the others. -/
def lastAxis (s : Shape) (xs p : List Int) : List Int :=
  (upTo (s.getLastD 1)).map fun k => xs.getD (Shape.dot (p ++ [k]) s.strides).toNat 0

/-- The vector along the first axis at coordinates on the others. -/
def firstAxis (t : Shape) (ys q : List Int) : List Int :=
  (upTo (t.headD 1)).map fun k => ys.getD (Shape.dot (k :: q) t.strides).toNat 0

/-- A vector at a length: one of a single item is repeated. -/
def stretched (n : Int) (v : List Int) : List Int :=
  if v.length = 1 then List.replicate n.toNat (v.headD 0) else v

theorem length_stretched {v : List Int} (hn : 0 ≤ n) (h : (v.length : Int) = 1 ∨ v.length = n) :
    ((stretched n v).length : Int) = n := by
  unfold stretched
  split
  · rw [List.length_replicate, Int.toNat_of_nonneg hn]
  · omega

theorem getD_stretched {v : List Int} (h : (v.length : Int) = 1 ∨ v.length = n)
    (hk : 0 ≤ k ∧ k < n) : (stretched n v).getD k.toNat 0 = v.getD (along v.length k).toNat 0 := by
  unfold stretched along
  split
  case isTrue h1 =>
    obtain ⟨x, rfl⟩ := List.length_eq_one_iff.mp h1
    have hlt : k.toNat < n.toNat := by omega
    simp [hlt]
  case isFalse h1 =>
    rw [if_pos (by omega)]

/-- The radices of a cell at the common length, by the row that it is in. -/
def innerRadices (s t : Shape) (xs p : List Int) : List Int :=
  stretched (commonLength (s.getLastD 1) (t.headD 1)) (lastAxis s xs p)

/-- The digits of a cell at the common length, by the column that it is in. -/
def innerDigits (s t : Shape) (ys q : List Int) : List Int :=
  stretched (commonLength (s.getLastD 1) (t.headD 1)) (firstAxis t ys q)

theorem length_lastAxis (hs : s.IsProper) : ((lastAxis s xs p).length : Int) = s.getLastD 1 := by
  rw [lastAxis, List.length_map, length_upTo, Int.toNat_of_nonneg hs.getLastD_nonneg]

theorem length_firstAxis (ht : t.IsProper) : ((firstAxis t ys q).length : Int) = t.headD 1 := by
  rw [firstAxis, List.length_map, length_upTo, Int.toNat_of_nonneg ht.headD_nonneg]

theorem getD_lastAxis (hk : 0 ≤ k ∧ k < s.getLastD 1) : (lastAxis s xs p).getD k.toNat 0 =
    xs.getD (Shape.dot (p ++ [k]) s.strides).toNat 0 := by
  rw [List.getD_eq_getElem?_getD, lastAxis, getElem?_map_upTo _ hk]
  rfl

theorem getD_firstAxis (hk : 0 ≤ k ∧ k < t.headD 1) : (firstAxis t ys q).getD k.toNat 0 =
    ys.getD (Shape.dot (k :: q) t.strides).toNat 0 := by
  rw [List.getD_eq_getElem?_getD, firstAxis, getElem?_map_upTo _ hk]
  rfl

theorem commonLength_nonneg (hs : s.IsProper) (ht : t.IsProper) :
    0 ≤ commonLength (s.getLastD 1) (t.headD 1) := by
  have hlast := hs.getLastD_nonneg
  have hfirst := ht.headD_nonneg
  unfold commonLength
  split <;> omega

theorem lastAxis_fits (hs : s.IsProper) (first : Int) : ((lastAxis s xs p).length : Int) = 1 ∨
    ((lastAxis s xs p).length : Int) = commonLength (s.getLastD 1) first := by
  rw [length_lastAxis hs]
  unfold commonLength
  split <;> omega

theorem firstAxis_fits (ht : t.IsProper) (h : Conform last (t.headD 1)) :
    ((firstAxis t ys q).length : Int) = 1 ∨
      ((firstAxis t ys q).length : Int) = commonLength last (t.headD 1) := by
  rw [length_firstAxis ht]
  unfold Conform at h
  unfold commonLength
  split <;> omega

theorem length_innerRadices (hs : s.IsProper) (ht : t.IsProper) :
    ((innerRadices s t xs p).length : Int) = commonLength (s.getLastD 1) (t.headD 1) :=
  length_stretched (commonLength_nonneg hs ht) (lastAxis_fits hs _)

theorem length_innerDigits (hs : s.IsProper) (ht : t.IsProper)
    (h : Conform (s.getLastD 1) (t.headD 1)) :
    ((innerDigits s t ys q).length : Int) = commonLength (s.getLastD 1) (t.headD 1) :=
  length_stretched (commonLength_nonneg hs ht) (firstAxis_fits ht h)

/-- The value of the digits of a cell in its radices. -/
def innerValue (s t : Shape) (xs ys p q : List Int) : Int :=
  Shape.dot (innerDigits s t ys q) (Shape.strides (innerRadices s t xs p))

theorem innerValue_eq_zero (hs : s.IsProper) (ht : t.IsProper)
    (h0 : commonLength (s.getLastD 1) (t.headD 1) = 0) : innerValue s t xs ys p q = 0 := by
  have hlength : ((innerRadices s t xs p).length : Int) = _ := length_innerRadices hs ht
  rw [h0] at hlength
  rw [innerValue, List.length_eq_zero_iff.mp (Int.natCast_eq_zero.mp hlength)]
  cases innerDigits s t ys q <;> rfl

/-- The values of an inner product, row by row. -/
def innerProducts (s t : Shape) (xs ys : List Int) : List Int :=
  (upTo (Shape.size (s.dropLast ++ t.drop 1))).map fun i =>
    innerValue s t xs ys
      ((Shape.coordinates (s.dropLast ++ t.drop 1) i).take s.dropLast.length)
      ((Shape.coordinates (s.dropLast ++ t.drop 1) i).drop s.dropLast.length)

theorem getElem?_innerProducts (hp : Shape.Within s.dropLast p) (hq : Shape.Within (t.drop 1) q) :
    (innerProducts s t xs ys)[(Shape.dot (p ++ q)
      (Shape.strides (s.dropLast ++ t.drop 1))).toNat]? = some (innerValue s t xs ys p q) := by
  have hwithin : Shape.Within (s.dropLast ++ t.drop 1) (p ++ q) := List.rel_append hp hq
  rw [innerProducts, getElem?_map_upTo _ hwithin.holds, Shape.coordinates_dot hwithin,
    ← hp.length_eq, List.take_left, List.drop_left]

/-- The cell of an inner product of whole numbers is the value of its digits in its radices. -/
theorem innerCell_eq_ok [Platform] (hs : s.IsProper) (ht : t.IsProper)
    (h : Conform (s.getLastD 1) (t.headD 1)) {radices cells : Gen Item}
    (hr : ∀ i, s.Holds i → radices.cell (.int i) = .ok (.int (xs.getD i.toNat 0)))
    (hd : ∀ i, t.Holds i → cells.cell (.int i) = .ok (.int (ys.getD i.toNat 0)))
    (hp : Shape.Within s.dropLast p) (hq : Shape.Within (t.drop 1) q) :
    innerCell radices cells (.int (s.getLastD 1)) (.int (t.headD 1)) (.int (Shape.size (t.drop 1)))
      (.int (commonLength (s.getLastD 1) (t.headD 1)))
      (.int (Shape.dot (p ++ q) (Shape.strides (s.dropLast ++ t.drop 1)))) =
        .ok (.int (innerValue s t xs ys p q)) := by
  have hlength : ((innerRadices s t xs p).length : Int) = _ := length_innerRadices hs ht
  have hlength' : (innerDigits s t ys q).length = (innerRadices s t xs p).length := by
    have hdigits : ((innerDigits s t ys q).length : Int) = _ := length_innerDigits hs ht h
    omega
  rw [Shape.dot_append_strides hp.length_eq, ← hlength]
  refine innerCell_ints hq.holds hlength' (fun k hk => ?_) fun k hk => ?_
  · rw [hlength] at hk
    obtain ⟨hlast, -⟩ := h.along_lt hk
    rw [← Shape.dot_last hp.length_eq hlast, hr _ (hp.holds_last hlast), innerRadices,
      getD_stretched (lastAxis_fits hs _) hk, length_lastAxis hs, getD_lastAxis hlast]
  · rw [hlength] at hk
    obtain ⟨-, hfirst⟩ := h.along_lt hk
    rw [← Shape.dot_first hq.length_eq hfirst, hd _ (hq.holds_first hfirst), innerDigits,
      getD_stretched (firstAxis_fits ht h) hk, length_firstAxis ht, getD_firstAxis hfirst]

end Radix

namespace Item

open Radix

variable {X Y : Item} {s t : Shape} {xs ys : List Int}

section

variable [Platform]

theorem decode_shape_of_conform (hX : X.lift.HandsOutInts s xs) (hY : Y.lift.HandsOutInts t ys)
    (h : Conform (s.getLastD 1) (t.headD 1)) :
    (decode X Y).shape = .ok (.ofShape (s.dropLast ++ t.drop 1)) := by
  simp only [decode, View.shape_computed, Lazy.get_delay, Lazy.get_keep, hX.shape, hY.shape,
    common_ofShape hX.proper hY.proper h, bind, Except.bind, pure, Except.pure]
  simp only [Extents.ofShape, List.map_append, List.map_dropLast, List.map_drop]

theorem decode_generator_of_conform (hX : X.lift.HandsOutInts s xs)
    (hY : Y.lift.HandsOutInts t ys) (h : Conform (s.getLastD 1) (t.headD 1))
    {radices cells : Gen Item} (hr : X.lift.generator = .ok radices)
    (hd : Y.lift.generator = .ok cells) :
    (decode X Y).generator = .ok (.indexed (innerCell radices cells (.int (s.getLastD 1))
      (.int (t.headD 1)) (.int (Shape.size (t.drop 1)))
      (.int (commonLength (s.getLastD 1) (t.headD 1))))) := by
  have hsize : Extents.size ((Extents.ofShape t).drop 1) = .ok (.int (Shape.size (t.drop 1))) := by
    rw [Extents.ofShape, ← List.map_drop]
    exact Extents.size_ofShape (t.drop 1)
  simp only [decode, View.generator_computed, Lazy.get_keep, hX.shape, hY.shape, hr, hd,
    common_ofShape hX.proper hY.proper h, bind, Except.bind, hsize, getLastD_ofShape, headD_ofShape,
    pure, Except.pure]

theorem decode_refused (hX : X.lift.shape = .ok (.ofShape s)) (hY : Y.lift.shape = .ok (.ofShape t))
    (h : ¬ Conform (s.getLastD 1) (t.headD 1)) :
    let e : Fault := .length .radicesAndDigits [Extents.ofShape s, Extents.ofShape t]
    (decode X Y).shape = .error e ∧ (decode X Y).generator = .error e ∧
      (view (decode X Y)).render = .error e := by
  have hcommon := common_eq_error h
  have hshape : (decode X Y).shape =
      .error (.length .radicesAndDigits [Extents.ofShape s, Extents.ofShape t]) := by
    simp only [decode, View.shape_computed, Lazy.get_delay, Lazy.get_keep, hX, hY, hcommon, bind,
      Except.bind]
  refine ⟨hshape, ?_, ?_⟩
  · simp only [decode, View.generator_computed, Lazy.get_keep, hX, hY, hcommon, bind, Except.bind]
  · rw [View.render_eq (by rintro ⟨g, ⟨⟩⟩), Tower.collect, View.shape_settled, hshape]
    rfl

theorem handsOutInts_decode (hX : X.lift.HandsOutInts s xs) (hY : Y.lift.HandsOutInts t ys)
    (h : Conform (s.getLastD 1) (t.headD 1)) :
    (decode X Y).HandsOutInts (s.dropLast ++ t.drop 1) (innerProducts s t xs ys) := by
  have hs : Shape.IsProper s.dropLast := fun n hn =>
    hX.proper n ((List.dropLast_sublist s).subset hn)
  have ht : Shape.IsProper (t.drop 1) := fun n hn => hY.proper n (List.mem_of_mem_drop hn)
  obtain ⟨radices, hr, hrcell⟩ := hX.cells
  obtain ⟨cells, hd, hdcell⟩ := hY.cells
  refine ⟨hs.append ht, ?_, decode_shape_of_conform hX hY h, _,
    decode_generator_of_conform hX hY h hr hd, fun i hi => ?_⟩
  · rw [innerProducts, List.length_map, length_upTo,
      Int.toNat_of_nonneg (Shape.size_nonneg (hs.append ht))]
  · obtain ⟨p, q, hp, hq, rfl⟩ := Shape.exists_within_append hs ht hi
    rw [Gen.cell_indexed, innerCell_eq_ok hX.proper hY.proper h hrcell hdcell hp hq,
      List.getD_eq_getElem?_getD, getElem?_innerProducts hp hq]
    rfl

/-- Decoding whole numbers is an inner product. If the last axis of the radices and the first axis
of the digits go together, the result has the other axes of both. The item at coordinates of the
radices and coordinates of the digits is the value of the digits there in the radices there, both at
the common length, and zero if that is zero. It renders if the element types are numeric. Axes that
do not go together are refused for their length. -/
theorem decode_innerProduct (hX : X.lift.HandsOutInts s xs)
    (hY : Y.lift.HandsOutInts t ys) :
    (Conform (s.getLastD 1) (t.headD 1) → ∃ ns,
      (decode X Y).HandsOutInts (s.dropLast ++ t.drop 1) ns ∧
      (∀ p q, Shape.Within s.dropLast p → Shape.Within (t.drop 1) q → ∃ v : Int,
        ns[(Shape.position (s.dropLast ++ t.drop 1) (p ++ q)).toNat]? = some v ∧
        Radix.decode ((innerRadices s t xs p).map int) ((innerDigits s t ys q).map int) =
          .ok (int v) ∧
        (commonLength (s.getLastD 1) (t.headD 1) = 0 → v = 0)) ∧
      ((∃ a, X.lift.etype = .ok a ∧ a.isNumeric = true) →
        (∃ b, Y.lift.etype = .ok b ∧ b.isNumeric = true) → ∃ fill,
          (view (decode X Y)).render =
            .ok (.array ⟨s.dropLast ++ t.drop 1, ns.map int, fill⟩))) ∧
    (¬ Conform (s.getLastD 1) (t.headD 1) →
      let e : Fault := .length .radicesAndDigits [Extents.ofShape s, Extents.ofShape t]
      (decode X Y).shape = .error e ∧ (decode X Y).generator = .error e ∧
        (view (decode X Y)).render = .error e) := by
  refine ⟨fun h => ?_, decode_refused hX.shape hY.shape⟩
  have hout := handsOutInts_decode hX hY h
  refine ⟨_, hout, fun p q hp hq => ⟨innerValue s t xs ys p q, ?_, decode_ints _ _,
    innerValue_eq_zero hX.proper hY.proper⟩, fun ha hb => ?_⟩
  · have hlength : (p ++ q).length = (s.dropLast ++ t.drop 1).length := by
      rw [List.length_append, List.length_append, hp.length_eq, hq.length_eq]
    rw [Shape.position_eq_dot hlength]
    exact getElem?_innerProducts hp hq
  · have hready := View.isReady_of_computed (v := decode X Y) rfl hout.shape hout.proper rfl
    obtain ⟨e, he, -⟩ := decode_etype_of_numeric ha hb
    exact ⟨_, (hout.offersInts ⟨e, he⟩).render hready (by rintro ⟨g, ⟨⟩⟩) rfl⟩

end

def rowsOfRadices : Item := array ⟨[2, 2], [int 24, int 60, int 10, int 10], none⟩

/-- Two digits side by side, each of which is to be repeated. -/
def rowOfDigits : Item := array ⟨[1, 2], [int 3, int 4], none⟩

open scoped Usual in
theorem rowsOfRadices_decode :
    (∃ ns, (decode rowsOfRadices rowOfDigits).HandsOutInts [2, 2] ns ∧ ns[1]? = some 244) ∧
      (decode rowsOfRadices (ints [1, 2, 3])).shape =
        .error (.length .radicesAndDigits [[2, 2], [3]]) := by
  have radices : rowsOfRadices.lift.HandsOutInts [2, 2] [24, 60, 10, 10] :=
    View.handsOutInts_ofGrid [24, 60, 10, 10] (by simp [Shape.IsProper]) rfl
  have digits : rowOfDigits.lift.HandsOutInts [1, 2] [3, 4] :=
    View.handsOutInts_ofGrid [3, 4] (by simp [Shape.IsProper]) rfl
  have three : (ints [1, 2, 3]).lift.HandsOutInts [3] [1, 2, 3] :=
    View.handsOutInts_ofGrid [1, 2, 3] (by simp [Shape.IsProper]) rfl
  constructor
  · obtain ⟨ns, hns, hcell, -⟩ := (decode_innerProduct radices digits).1 (by decide)
    obtain ⟨v, hv, hvalue, -⟩ := hcell [0] [1] (by decide) (by decide)
    have value : Radix.decode ((innerRadices [2, 2] [1, 2] [24, 60, 10, 10] [0]).map int)
        ((innerDigits [2, 2] [1, 2] [3, 4] [1]).map int) = .ok (int 244) := rfl
    cases value.symm.trans hvalue
    exact ⟨ns, hns, hv⟩
  · exact ((decode_innerProduct radices three).2 (by decide)).1

end Item
end LazyApl
