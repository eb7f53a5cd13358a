/-! # Bisection

The place in a row at which a condition ceases to hold, found by halving the row. It has an item for
which the condition holds in front of it and one for which the condition fails behind it, except at
the ends of the row. If the condition never holds behind an item for which it fails, the place is
that of the first item for which it fails.
-/

namespace KeyedTree

variable {α : Type}

/-- The place in a row at which `before` ceases to hold. The item in the middle is in front of the
place, if `before` holds for it, and else behind it. -/
def bisect (before : α → Bool) (row : List α) : Nat :=
  if hshort : row.length < 2 then row.countP before
  else
    have hmiddle : row.length / 2 < row.length := by omega
    if before row[row.length / 2] then
      row.length / 2 + bisect before (row.drop (row.length / 2))
    else bisect before (row.take (row.length - row.length / 2))
termination_by row.length
decreasing_by all_goals grind

/-- The place is in the row or at its end. -/
theorem bisect_le_length (before : α → Bool) (row : List α) : bisect before row ≤ row.length := by
  fun_induction bisect before row with
  | case1 row hshort => exact List.countP_le_length
  | case2 row hshort hmiddle hbefore ih => grind
  | case3 row hshort hmiddle hbefore ih => grind

/-- The item behind the place is not `before` it, and the item in front of it is. -/
theorem bisect_boundary (before : α → Bool) (row : List α) :
    (∀ item, row[bisect before row]? = some item → before item = false) ∧
      ∀ pos item, pos + 1 = bisect before row → row[pos]? = some item → before item = true := by
  fun_induction bisect before row with
  | case1 row hshort =>
      match row with
      | [] => simp
      | [only] => cases hbefore : before only <;> simp_all
  | case2 row hshort hmiddle hbefore ih =>
      simp only [List.getElem?_drop] at ih
      refine ⟨fun item hitem => ih.1 item hitem, fun pos item hpos hitem => ?_⟩
      cases hplace : bisect before (row.drop (row.length / 2)) with
      | zero =>
          have hafter := ih.1 _ (by rw [hplace]; exact List.getElem?_eq_getElem hmiddle)
          exact absurd hbefore (by simp [hafter])
      | succ place =>
          have hsame : row.length / 2 + place = pos := by omega
          exact ih.2 place item hplace.symm (hsame ▸ hitem)
  | case3 row hshort hmiddle hbefore ih =>
      have hle := bisect_le_length before (row.take (row.length - row.length / 2))
      generalize bisect before (row.take (row.length - row.length / 2)) = place at ih hle
      have hkept : ∀ pos < row.length - row.length / 2,
          (row.take (row.length - row.length / 2))[pos]? = row[pos]? :=
        fun pos hpos => List.getElem?_take_of_lt hpos
      rw [List.length_take] at hle
      refine ⟨fun item hitem => ?_, fun pos item hpos hitem =>
        ih.2 pos item hpos ((hkept pos (by omega)).trans hitem)⟩
      by_cases hin : place < row.length - row.length / 2
      · exact ih.1 item ((hkept place hin).trans hitem)
      · by_cases heven : place = row.length / 2
        · rw [heven, List.getElem?_eq_getElem hmiddle, Option.some.injEq] at hitem
          exact hitem ▸ eq_false_of_ne_true hbefore
        · exact absurd (ih.2 (row.length / 2) _ (by omega)
            ((hkept _ (by omega)).trans (List.getElem?_eq_getElem hmiddle))) hbefore

/-- In a row where `before` never holds behind an item for which it fails, bisection finds the first
such item. -/
theorem bisect_eq_findIdx {before : α → Bool} {row : List α}
    (hrow : row.Pairwise fun left right => before right = true → before left = true) :
    bisect before row = row.findIdx fun item => !before item := by
  have hle := bisect_le_length before row
  obtain ⟨hbehind, hfront⟩ := bisect_boundary before row
  have hfirst : ∀ pos, (hpos : pos < bisect before row) → before row[pos] = true := by
    intro pos hpos
    have hlast := hfront (bisect before row - 1) _ (by omega) (List.getElem?_eq_getElem (by omega))
    rcases Nat.lt_or_eq_of_le (Nat.le_sub_one_of_lt hpos) with hlt | heq
    · exact List.pairwise_iff_getElem.mp hrow _ _ (by omega) (by omega) hlt hlast
    · simpa only [heq] using hlast
  rcases Nat.lt_or_eq_of_le hle with hlt | heq
  · exact ((List.findIdx_eq hlt).mpr ⟨by simp [hbehind _ (List.getElem?_eq_getElem hlt)],
      fun pos hpos => by simp [hfirst pos hpos]⟩).symm
  · rw [heq]
    exact (List.findIdx_eq_length_of_false fun item hitem => by
      obtain ⟨pos, hpos, rfl⟩ := List.mem_iff_getElem.mp hitem
      simp [hfirst pos (by omega)]).symm

end KeyedTree
