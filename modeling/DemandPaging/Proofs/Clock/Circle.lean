import DemandPaging.Proofs.Clock.Victim

/-! # The circle of the frame table

Seen from the hand, the entries of the frame table are a circle. An entry that leaves the table
drops out of the circle and the others stay in their order, wherever the hand is: the hand comes to
each of them neither earlier nor later than its turn. In what order several entries leave does not
matter.
-/

namespace DemandPaging.FrameTable

variable {table : FrameTable} {entries : List FrameEntry} {e : FrameEntry} {index i j : ℕ}
  {frame other : Frame}

/-! ## An entry comes or leaves -/

theorem ahead_of_split {before after : List FrameEntry} (hsplit : table.entries = before ++ after)
    (hhand : table.hand = before.length) : table.ahead = after ++ before := by
  rw [ahead, hsplit, hhand, List.rotate_append_length_eq]

theorem exists_ahead_push (h : table.Rests) (e : FrameEntry) : ∃ before after,
    table.ahead = before ++ after ∧ (table.push e).ahead = before ++ e :: after := by
  have hhand : table.hand ≤ table.entries.length := by
    unfold Rests size at h
    omega
  have hlength : table.hand = (table.entries.take table.hand).length :=
    (List.length_take_of_le hhand).symm
  refine ⟨table.entries.drop table.hand, table.entries.take table.hand,
    ahead_of_split (List.take_append_drop ..).symm hlength, ?_⟩
  have hsplit : (table.push e).entries =
      table.entries.take table.hand ++ (table.entries.drop table.hand ++ [e]) := by
    rw [push, ← List.append_assoc, List.take_append_drop]
  rw [ahead_of_split hsplit hlength, List.append_assoc, List.singleton_append]

theorem ahead_removeAt_of_split {before after : List FrameEntry}
    (hsplit : table.entries.eraseIdx index = before ++ after)
    (hhand : (if index < table.hand then table.hand - 1 else table.hand) = before.length) :
    (table.removeAt index).ahead = after ++ before := by
  simp only [ahead, removeAt, hsplit, hhand]
  split
  · next hend =>
      -- the hand is past the last entry, and goes back to the first
      have hnil : after = [] := by
        rw [List.length_append] at hend
        exact List.length_eq_zero_iff.mp (by omega)
      rw [hnil, List.append_nil, List.rotate_zero, List.nil_append]
  · exact List.rotate_append_length_eq before after

theorem eraseIdx_append_cons (before after : List FrameEntry) (e : FrameEntry) :
    (before ++ e :: after).eraseIdx before.length = before ++ after := by
  rw [List.eraseIdx_append_of_length_le (Nat.le_refl _), Nat.sub_self, List.eraseIdx_cons_zero]

/-- An entry drops out of the circle, and the entry to be examined next stays the same, or is the
one behind it if it was the entry that left. -/
structure Leaves (table : FrameTable) (index : ℕ) (e : FrameEntry) : Prop where
  order : ∃ before after, table.ahead = before ++ e :: after ∧
    (table.removeAt index).ahead = before ++ after ∧
    (table.hand + before.length) % table.size = index
  next : 1 < table.size → (table.removeAt index).entries[(table.removeAt index).hand]? =
    if index = table.hand then table.entries[(table.hand + 1) % table.size]?
    else table.entries[table.hand]?

theorem exists_around (h : table.Rests) (he : table.entries[index]? = some e) :
    ∃ before after, table.ahead = before ++ e :: after ∧
      (table.removeAt index).ahead = before ++ after ∧
      (table.hand + before.length = index ∨ table.hand + before.length = index + table.size) := by
  have hindex : index < table.size := (List.getElem?_eq_some_iff.mp he).1
  obtain ⟨left, found, right, hsplit, hleft, -⟩ := List.exists_of_modify id hindex
  obtain rfl : found = e := by
    rw [hsplit, List.getElem?_append_right (Nat.le_of_eq hleft), hleft, Nat.sub_self] at he
    exact Option.some.inj he
  have hhand := h.hand_lt (List.ne_nil_of_length_pos (Nat.zero_lt_of_lt hindex))
  have hsize : table.size = left.length + (right.length + 1) := by
    rw [size, hsplit, List.length_append, List.length_cons]
  have herase : table.entries.eraseIdx index = left ++ right := by
    rw [hsplit, ← hleft, eraseIdx_append_cons]
  rcases Nat.lt_or_ge index table.hand with hpast | hahead
  · -- the hand is past the entry: what comes last before the hand comes last in the circle
    obtain ⟨passed, rest, rfl, hpassed⟩ : ∃ passed rest, right = passed ++ rest ∧
        index + 1 + passed.length = table.hand :=
      ⟨right.take (table.hand - (index + 1)), right.drop (table.hand - (index + 1)),
        (List.take_append_drop ..).symm, by rw [List.length_take]; omega⟩
    refine ⟨rest ++ left, passed, ?_, ?_, .inr ?_⟩
    · have hcut : table.hand = (left ++ found :: passed).length := by
        rw [List.length_append, List.length_cons]
        omega
      rw [ahead_of_split (by rw [hsplit, List.append_assoc, List.cons_append]) hcut,
        List.append_assoc]
    · have hback : table.hand - 1 = (left ++ passed).length := by
        rw [List.length_append]
        omega
      rw [ahead_removeAt_of_split (by rw [herase, List.append_assoc])
        ((if_pos hpast).trans hback), List.append_assoc]
    · simp only [List.length_append] at hsize ⊢
      omega
  · obtain ⟨passed, rest, rfl, hpassed⟩ : ∃ passed rest, left = passed ++ rest ∧
        passed.length = table.hand :=
      ⟨left.take table.hand, left.drop table.hand, (List.take_append_drop ..).symm, by
        rw [List.length_take]; omega⟩
    refine ⟨rest, right ++ passed, ?_, ?_, .inl ?_⟩
    · rw [ahead_of_split (by rw [hsplit, List.append_assoc]) hpassed.symm, List.append_assoc,
        List.cons_append]
    · rw [ahead_removeAt_of_split (by rw [herase, List.append_assoc])
        ((if_neg (Nat.not_lt.mpr hahead)).trans hpassed.symm), List.append_assoc]
    · rw [← hleft, List.length_append, hpassed]

theorem getElem?_hand (h : table.Rests) : table.entries[table.hand]? = table.ahead[0]? := by
  by_cases hempty : table.entries = []
  · simp [ahead, hempty]
  · have hhand := h.hand_lt hempty
    rw [getElem?_ahead (Nat.zero_lt_of_lt hhand), Nat.add_zero, Nat.mod_eq_of_lt hhand]

theorem leaves (h : table.Rests) (he : table.entries[index]? = some e) : table.Leaves index e := by
  obtain ⟨before, after, haround, hleft, hindex⟩ := exists_around h he
  have hlt : index < table.size := (List.getElem?_eq_some_iff.mp he).1
  have hhand := h.hand_lt (List.ne_nil_of_length_pos (Nat.zero_lt_of_lt hlt))
  refine ⟨⟨before, after, haround, hleft, ?_⟩, fun hmore => ?_⟩
  · rcases hindex with hindex | hindex
    · rw [hindex, Nat.mod_eq_of_lt hlt]
    · rw [hindex, Nat.add_mod_right, Nat.mod_eq_of_lt hlt]
  · have hlength := congrArg List.length haround
    rw [length_ahead, List.length_append, List.length_cons] at hlength
    rw [getElem?_hand (rests_removeAt table index), hleft]
    cases before with
    | nil =>
        rw [if_pos (by simp only [List.length_nil] at hindex; omega), ← getElem?_ahead hmore,
          haround]
        rfl
    | cons next before =>
        rw [if_neg (by simp only [List.length_cons] at hindex hlength; omega), getElem?_hand h,
          haround]
        rfl

/-! ## Two entries leave -/

/-- Where the hand is after an entry has left: with the entry before or after it, or, if it was at
the last entry and that left, at the start. -/
theorem hand_removeAt_cases (h : table.Rests) (hindex : index < table.size) :
    index < table.hand ∧ (table.removeAt index).hand + 1 = table.hand ∨
    table.hand ≤ index ∧ table.hand + 1 < table.size ∧
      (table.removeAt index).hand = table.hand ∨
    table.hand = index ∧ index + 1 = table.size ∧ (table.removeAt index).hand = 0 := by
  have hhand := h.hand_lt (List.ne_nil_of_length_pos (Nat.zero_lt_of_lt hindex))
  have hlength : (table.entries.eraseIdx index).length = table.size - 1 :=
    List.length_eraseIdx_of_lt hindex
  simp only [removeAt, hlength]
  split <;> split <;> omega

/-- The entry that comes later in the table moves up when the earlier one leaves first. -/
theorem removeAt_removeAt (h : table.Rests) (hij : i < j) (hj : j < table.size) :
    (table.removeAt j).removeAt i = (table.removeAt i).removeAt (j - 1) := by
  have hentries : (table.entries.eraseIdx j).eraseIdx i =
      (table.entries.eraseIdx i).eraseIdx (j - 1) := by
    refine List.ext_getElem? fun k => ?_
    simp only [List.getElem?_eraseIdx]
    grind
  have hhand : ((table.removeAt j).removeAt i).hand =
      ((table.removeAt i).removeAt (j - 1)).hand := by
    have hi : i < table.size := Nat.lt_trans hij hj
    have hlate := hand_removeAt_cases h hj
    have hearly := hand_removeAt_cases h hi
    have hsize := size_removeAt hj
    have hsize' := size_removeAt hi
    have hthen : i < (table.removeAt j).size := by omega
    have hthen' : j - 1 < (table.removeAt i).size := by omega
    have hlast := hand_removeAt_cases (table.rests_removeAt j) hthen
    have hlast' := hand_removeAt_cases (table.rests_removeAt i) hthen'
    omega
  exact (FrameTable.mk.injEq ..).mpr ⟨hentries, hhand, rfl⟩

theorem removeFrame_of_findIdx?_eq_none (hnone : table.entries.findIdx? (·.frame == frame) = none) :
    table.removeFrame frame = table := by
  rw [removeFrame, hnone]

theorem removeFrame_of_findIdx?_eq_some
    (hsome : table.entries.findIdx? (·.frame == frame) = some index) :
    table.removeFrame frame = table.removeAt index := by
  rw [removeFrame, hsome]

theorem removeFrame_cases (table : FrameTable) (frame : Frame) :
    table.entries.find? (·.frame == frame) = none ∧ table.removeFrame frame = table ∨
    ∃ index e, table.entries.find? (·.frame == frame) = some e ∧ table.entries[index]? = some e ∧
      table.removeFrame frame = table.removeAt index := by
  cases hfind : table.entries.findIdx? (·.frame == frame) with
  | none =>
      refine .inl ⟨?_, removeFrame_of_findIdx?_eq_none hfind⟩
      exact List.find?_eq_none.mpr fun e he =>
        Bool.eq_false_iff.mp (List.findIdx?_eq_none_iff.mp hfind e he)
  | some index =>
      obtain ⟨hlt, hframe, hfirst⟩ := List.findIdx?_eq_some_iff_getElem.mp hfind
      refine .inr ⟨index, table.entries[index], ?_, List.getElem?_eq_getElem hlt,
        removeFrame_of_findIdx?_eq_some hfind⟩
      refine List.find?_eq_some_iff_getElem.mpr ⟨hframe, index, hlt, rfl, fun i hi => ?_⟩
      rw [Bool.not_eq_true', ← Bool.not_eq_true]
      exact hfirst i hi

theorem findIdx?_eraseIdx {p : FrameEntry → Bool} (hj : entries.findIdx? p = some j) (hne : i ≠ j) :
    (entries.eraseIdx i).findIdx? p = some (if i < j then j - 1 else j) := by
  obtain ⟨hlt, hfound, hfirst⟩ := List.findIdx?_eq_some_iff_getElem.mp hj
  rw [List.findIdx?_eq_some_iff_getElem]
  grind

theorem removeFrame_comm_of_lt (h : table.Rests)
    (hi : table.entries.findIdx? (·.frame == frame) = some i)
    (hj : table.entries.findIdx? (·.frame == other) = some j) (hij : i < j) :
    (table.removeFrame frame).removeFrame other = (table.removeFrame other).removeFrame frame := by
  have hsize : j < table.size := (List.findIdx?_eq_some_iff_getElem.mp hj).1
  have hlater := findIdx?_eraseIdx hj (Nat.ne_of_lt hij)
  have hearlier := findIdx?_eraseIdx hi (Nat.ne_of_gt hij)
  rw [if_pos hij] at hlater
  rw [if_neg (Nat.not_lt_of_gt hij)] at hearlier
  rw [removeFrame_of_findIdx?_eq_some hi, removeFrame_of_findIdx?_eq_some hj,
    removeFrame_of_findIdx?_eq_some hlater, removeFrame_of_findIdx?_eq_some hearlier,
    removeAt_removeAt h hij hsize]

theorem removeFrame_comm_of_none (hnone : table.entries.findIdx? (·.frame == frame) = none)
    (other : Frame) :
    (table.removeFrame frame).removeFrame other = (table.removeFrame other).removeFrame frame := by
  have hsub : (table.removeFrame other).entries ⊆ table.entries := by
    unfold removeFrame
    split
    · exact List.Subset.refl _
    · exact List.eraseIdx_subset
  have hstill : (table.removeFrame other).entries.findIdx? (·.frame == frame) = none :=
    List.findIdx?_eq_none_iff.mpr fun e he => List.findIdx?_eq_none_iff.mp hnone e (hsub he)
  rw [removeFrame_of_findIdx?_eq_none hnone, removeFrame_of_findIdx?_eq_none hstill]

/-- The entries of two frames leave the same table in either order. -/
theorem removeFrame_comm (h : table.Rests) (frame other : Frame) :
    (table.removeFrame frame).removeFrame other = (table.removeFrame other).removeFrame frame := by
  cases hi : table.entries.findIdx? (·.frame == frame) with
  | none => exact removeFrame_comm_of_none hi other
  | some i =>
      cases hj : table.entries.findIdx? (·.frame == other) with
      | none => exact (removeFrame_comm_of_none hj frame).symm
      | some j =>
          rcases Nat.lt_trichotomy i j with hij | rfl | hij
          · exact removeFrame_comm_of_lt h hi hj hij
          · -- one entry has one frame
            obtain ⟨_, hframe, -⟩ := List.findIdx?_eq_some_iff_getElem.mp hi
            obtain ⟨_, hother, -⟩ := List.findIdx?_eq_some_iff_getElem.mp hj
            rw [← beq_iff_eq.mp hframe, ← beq_iff_eq.mp hother]
          · exact (removeFrame_comm_of_lt h hj hi hij).symm

theorem foldl_removeFrame_perm (h : table.Rests) {frames others : List Frame}
    (hperm : frames.Perm others) :
    frames.foldl removeFrame table = others.foldl removeFrame table := by
  induction hperm generalizing table with
  | nil => rfl
  | cons frame _ ih => exact ih (h.removeFrame frame)
  | swap frame other frames =>
      rw [List.foldl_cons, List.foldl_cons, List.foldl_cons, List.foldl_cons,
        removeFrame_comm h]
  | trans _ _ ih ih' => exact (ih h).trans (ih' h)

end DemandPaging.FrameTable
