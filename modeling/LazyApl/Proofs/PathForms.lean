import LazyApl.Primitive.Reach
import LazyApl.Proofs.Reading
/-!
# A path as a list and as an array

A path into nested arrays is written as a list of steps, each of them one value or a list of values,
or as the array with the same items. One value is read in the same way in both forms: it has to be a
whole number. The values of a step that is a list are cut off towards zero, and digits are read as a
number, while a step that is an array has to hold whole numbers. So the array says the same as the
list if every listed step is whole, and otherwise it is refused where the list may be accepted.
-/
namespace LazyApl

open Outcome

namespace Outcome

theorem exists_of_mapM_eq_error {α β : Type} {f : α → Except Fault β} {xs : List α} {e : Fault}
    (h : xs.mapM f = .error e) : ∃ x ∈ xs, f x = .error e := by
  induction xs with
  | nil => cases h
  | cons x xs ih =>
      rw [List.mapM_cons] at h
      cases hx : f x with
      | error c =>
          rw [hx] at h
          cases h
          exact ⟨x, List.mem_cons_self, hx⟩
      | ok y =>
          cases hxs : xs.mapM f with
          | error c =>
              rw [hx, hxs] at h
              cases h
              obtain ⟨z, hz, hf⟩ := ih hxs
              exact ⟨z, List.mem_cons_of_mem _ hz, hf⟩
          | ok ys =>
              rw [hx, hxs] at h
              cases h

/-- A computation that has the results of another one where something holds of a member, and no
result elsewhere, has the results of the other one for a list where it holds of all members. -/
theorem mapM_map_eq_ok {α β γ : Type} {f : β → Except Fault γ} {g : α → Except Fault γ}
    {k : α → β} {P : α → Prop} {xs : List α} {zs : List γ}
    (h : ∀ x ∈ xs, ∀ z, f (k x) = .ok z ↔ g x = .ok z ∧ P x) :
    (xs.map k).mapM f = .ok zs ↔ xs.mapM g = .ok zs ∧ ∀ x ∈ xs, P x := by
  rw [mapM_eq_ok, mapM_eq_ok, List.forall₂_map_left_iff]
  induction xs generalizing zs with
  | nil => simp
  | cons x xs ih =>
      obtain ⟨hx, hxs⟩ := List.forall_mem_cons.mp h
      simp only [List.forall₂_cons_left_iff, List.forall_mem_cons, hx, ih hxs]
      tauto

end Outcome

namespace Double

theorem rounded_of_toInt? {x : Float} {n : Int} (h : toInt? x = some n) :
    floor? x = some n ∧ ceiling? x = some n := by
  cases hp : parts? x with
  | none =>
      simp only [toInt?, hp] at h
      cases h
  | some p =>
      simp only [toInt?, hp, bind, Option.bind] at h
      split at h
      · rename_i hdvd
        obtain ⟨k, hk⟩ := Int.dvd_of_emod_eq_zero hdvd
        cases h
        rw [floor?, ceiling?, hp]
        refine ⟨rfl, congrArg some ?_⟩
        beta_reduce
        by_cases h0 : (p.ratio.2 : Int) = 0
        · rw [h0, Int.fdiv_zero, Int.fdiv_zero, Int.neg_zero]
        · rw [hk, ← Int.mul_neg, Int.mul_fdiv_cancel_left _ h0, Int.mul_fdiv_cancel_left _ h0,
            Int.neg_neg]
      · cases h

end Double

namespace Path

/-- A value in a path: a whole number, a double or a character. -/
inductive IsValue : Item → Prop
  | int (n : Int) : IsValue (.int n)
  | real (x : Float) : IsValue (.real x)
  | character {s : String} (h : s.length = 1) : IsValue (.text s)

/-- A step of a path as it is written: one value, or a list of values. -/
inductive IsWritten : Item → Prop
  | value {x : Item} (h : IsValue x) : IsWritten x
  | list {ys : List Item} (h : ∀ y ∈ ys, IsValue y) : IsWritten (.list ys)

/-- Whether the values of a step are whole numbers if it is a list. One value is not looked at. -/
def IsWholeList : Item → Prop
  | .list ys => ∀ y ∈ ys, ∃ n, y.asWhole "pick path" = .ok n
  | _ => True

/-- What is said of a step that does not hold whole numbers. -/
def refusal : Fault := .domain (.notInteger "pick path")

variable {x : Item} {n : Int} {e : Fault}

theorem IsValue.coordinate_eq {role : String} (h : IsValue x) (hn : x.asWhole role = .ok n) :
    coordinate x = .ok n := by
  cases h with
  | int m => exact hn
  | real x =>
      have hx : Double.toInt? x = some n := by
        simp only [Item.asWhole] at hn
        split at hn
        · rename_i m hm
          rw [hm, Except.ok.inj hn]
        · cases hn
      obtain ⟨hfloor, hceiling⟩ := Double.rounded_of_toInt? hx
      have hbelow : Number.wholeBelow x = .ok n := by rw [Number.wholeBelow, hfloor]
      have habove : Number.wholeAbove x = .ok n := by rw [Number.wholeAbove, hceiling]
      change (if x < 0 then Number.wholeAbove x else Number.wholeBelow x) = .ok n
      rw [hbelow, habove, ite_self]
  | character _ => cases hn

theorem IsValue.asWhole_eq_error {role : String} (h : IsValue x)
    (he : x.asWhole role = .error e) : e = .domain (.notInteger role) := by
  cases h with
  | int m => cases he
  | real x =>
      simp only [Item.asWhole] at he
      split at he
      · cases he
      · exact (Except.error.inj he).symm
  | character _ => exact (Except.error.inj he).symm

theorem IsValue.isKept (h : IsValue x) : x.IsKept := by
  cases h with
  | int n => rfl
  | real x => rfl
  | character h => exact Item.isKept_char h

theorem IsValue.vectorOf_eq (h : IsValue x) : x.vectorOf = x := by
  cases h <;> rfl

theorem IsValue.lift_eq (h : IsValue x) : x.lift = View.ofGrid ⟨[], [x], none⟩ := by
  cases h with
  | int n => rfl
  | real x => rfl
  | @character s h =>
      have hvector : (Item.text s).vectorOf = .text s := rfl
      have hstored : (Item.text s).stored = .text s := Item.stored_of_length_one h
      simp only [Item.lift, hvector, if_pos h, Grid.ofScalar, Grid.of, List.map_cons, List.map_nil,
        hstored]
      rfl

theorem asInts_values {s : Shape} {ys : List Item} (hl : ys.length = s.size.toNat)
    (h : ∀ y ∈ ys, IsValue y) (role : String) :
    (Item.array ⟨s, ys, none⟩).asInts role = ys.mapM (Item.asWhole role) := by
  rw [Item.asInts, Item.items_of_isKept ⟨hl, fun y hy => (h y hy).isKept⟩]
  rfl

theorem IsValue.step_eq (h : IsValue x) : step x = [x].mapM (Item.asWhole "pick path") := by
  have hlift : step x = (Item.view x.lift).asInts "pick path" := by
    cases h <;> rfl
  rw [hlift, h.lift_eq]
  exact asInts_values (s := []) rfl (List.forall_mem_singleton.mpr h) _

def inArray (x : Item) : Item := x.vectorOf.stored

theorem IsValue.inArray_eq (h : IsValue x) : inArray x = x := by
  rw [inArray, h.vectorOf_eq, h.isKept.stored_eq]

theorem map_inArray {ys : List Item} (h : ∀ y ∈ ys, IsValue y) : ys.map inArray = ys := by
  simpa using List.map_congr_left fun y hy => (h y hy).inArray_eq

theorem vectorOf_list (ys : List Item) :
    (Item.list ys).vectorOf = .array ⟨[ys.length], ys.map inArray, none⟩ := by
  rw [Item.vectorOf, Item.vectorsOf_eq_map, Grid.ofList, Grid.of, List.map_map, List.length_map]
  rfl

theorem inArray_list {ys : List Item} (h : ∀ y ∈ ys, IsValue y) :
    inArray (.list ys) = .array ⟨[ys.length], ys, none⟩ := by
  rw [inArray, vectorOf_list, map_inArray h]
  rfl

theorem step_inArray_list {ys : List Item} (h : ∀ y ∈ ys, IsValue y) :
    step (inArray (.list ys)) = ys.mapM (Item.asWhole "pick path") := by
  rw [inArray_list h, step, asInts_values (by simp) h]
  intro zs hzs
  cases hzs

theorem IsWritten.isKept_inArray (h : IsWritten x) : (inArray x).IsKept := by
  cases h with
  | value h => rw [h.inArray_eq]; exact h.isKept
  | list h => rw [inArray_list h]; rfl

theorem IsWritten.step_inArray_eq_error (h : IsWritten x) (he : step (inArray x) = .error e) :
    e = refusal := by
  have hvalues : ∃ ys : List Item, (∀ y ∈ ys, IsValue y) ∧
      ys.mapM (Item.asWhole "pick path") = .error e := by
    cases h with
    | value h =>
        rw [h.inArray_eq, h.step_eq] at he
        exact ⟨[x], List.forall_mem_singleton.mpr h, he⟩
    | @list ys h =>
        rw [step_inArray_list h] at he
        exact ⟨ys, h, he⟩
  obtain ⟨ys, hys, he⟩ := hvalues
  obtain ⟨y, hy, he⟩ := exists_of_mapM_eq_error he
  exact (hys y hy).asWhole_eq_error he

theorem IsWritten.step_inArray_eq_ok (h : IsWritten x) (c : List Int) :
    step (inArray x) = .ok c ↔ step x = .ok c ∧ IsWholeList x := by
  cases h with
  | value h =>
      have htrue : IsWholeList x := by cases h <;> trivial
      rw [h.inArray_eq, and_iff_left htrue]
  | @list ys h =>
      rw [step_inArray_list h]
      conv_lhs => rw [← List.map_id ys]
      refine mapM_map_eq_ok fun y hy n => ?_
      constructor
      · intro hn
        exact ⟨(h y hy).coordinate_eq hn, n, hn⟩
      · rintro ⟨hcoordinate, m, hm⟩
        cases hcoordinate.symm.trans ((h y hy).coordinate_eq hm)
        exact hm

theorem of_vectorOf {steps : List Item} (h : ∀ x ∈ steps, IsWritten x) :
    of (Item.list steps).vectorOf = (steps.map inArray).mapM step := by
  have hkept : Grid.IsKept ⟨[(steps.length : Int)], steps.map inArray, none⟩ := by
    refine ⟨by simp, fun y hy => ?_⟩
    obtain ⟨x, hx, rfl⟩ := List.mem_map.mp hy
    exact (h x hx).isKept_inArray
  have hitems := Item.items_of_isKept hkept
  rw [vectorOf_list]
  change ((Item.array ⟨[(steps.length : Int)], steps.map inArray, none⟩).items >>= fun xs =>
    xs.mapM step) = _
  rw [hitems]
  rfl

theorem IsWritten.step_inArray_of_whole (h : IsWritten x) (hx : IsWholeList x) :
    step (inArray x) = step x := by
  cases h with
  | value h => rw [h.inArray_eq]
  | @list ys h =>
      have hok : ∃ c, step (inArray (.list ys)) = .ok c := by
        cases hc : step (inArray (.list ys)) with
        | ok c => exact ⟨c, rfl⟩
        | error e =>
            rw [step_inArray_list h] at hc
            obtain ⟨y, hy, he⟩ := exists_of_mapM_eq_error hc
            obtain ⟨n, hn⟩ := hx y hy
            cases hn.symm.trans he
      obtain ⟨c, hc⟩ := hok
      rw [hc, (((IsWritten.list h).step_inArray_eq_ok c).mp hc).1]

/-- A path of values and of lists of values, against the array with the same items and nesting. The
array is accepted, with the same steps, exactly if the list is and its listed steps hold whole
numbers; if it is refused then because something is no whole number. So the two forms have one
outcome only if the list is refused for that reason, too, or its listed steps hold whole numbers. -/
theorem of_vectorOf_iff {steps : List Item} (h : ∀ x ∈ steps, IsWritten x) :
    (∀ p, of (Item.list steps).vectorOf = .ok p ↔
      of (.list steps) = .ok p ∧ ∀ x ∈ steps, IsWholeList x) ∧
    (∀ e, of (Item.list steps).vectorOf = .error e → e = refusal) ∧
    (of (Item.list steps).vectorOf = of (.list steps) ↔
      of (.list steps) = .error refusal ∨ ∀ x ∈ steps, IsWholeList x) := by
  have hok : ∀ p, of (Item.list steps).vectorOf = .ok p ↔
      of (.list steps) = .ok p ∧ ∀ x ∈ steps, IsWholeList x := by
    intro p
    rw [of_vectorOf h]
    exact mapM_map_eq_ok fun x hx c => (h x hx).step_inArray_eq_ok c
  have herror : ∀ e, of (Item.list steps).vectorOf = .error e → e = refusal := by
    intro e he
    rw [of_vectorOf h] at he
    obtain ⟨y, hy, he⟩ := exists_of_mapM_eq_error he
    obtain ⟨x, hx, rfl⟩ := List.mem_map.mp hy
    exact (h x hx).step_inArray_eq_error he
  refine ⟨hok, herror, fun heq => ?_, ?_⟩
  · cases hp : of (Item.list steps).vectorOf with
    | ok p => exact .inr ((hok p).mp hp).2
    | error e =>
        obtain rfl := herror e hp
        exact .inl (heq.symm.trans hp)
  · rintro (hrefused | hwhole)
    · cases hp : of (Item.list steps).vectorOf with
      | ok p => cases hrefused.symm.trans ((hok p).mp hp).1
      | error e => rw [herror e hp, hrefused]
    · rw [of_vectorOf h, List.mapM_map]
      exact mapM_congr fun x hx => (h x hx).step_inArray_of_whole (hwhole x hx)

/-- A digit in a listed step is accepted, but not in the array with the same items. -/
theorem digit_of_vectorOf :
    (∀ x ∈ [Item.list [.text "3"]], IsWritten x) ∧
      of (.list [.list [.text "3"]]) = .ok [[3]] ∧
      of (Item.list [.list [.text "3"]]).vectorOf = .error refusal := by
  have hwritten : ∀ x ∈ [Item.list [.text "3"]], IsWritten x :=
    List.forall_mem_singleton.mpr (.list (List.forall_mem_singleton.mpr (.character rfl)))
  refine ⟨hwritten, rfl, ?_⟩
  cases hp : of (Item.list [.list [.text "3"]]).vectorOf with
  | ok p =>
      obtain ⟨_, hwhole⟩ := ((of_vectorOf_iff hwritten).1 p).mp hp
      obtain ⟨n, hn⟩ := hwhole _ List.mem_cons_self (.text "3") List.mem_cons_self
      cases hn
  | error e => rw [(of_vectorOf_iff hwritten).2.1 e hp]

end Path
end LazyApl
