import DemandPaging.Proofs.Clock.Victim

/-! # Whose turn it is

An entry whose page is not accessed waits for the hand. The entries that the hand has to come to
first are those between the hand and the entry, or, if the hand has gone past it, those up to the
end of the table and then those before the entry. Every eviction takes one of them, or the hand
passes some; but a page that comes into a frame is listed at the end of the table, where the hand
comes to it before it goes round again, so that a hand that has gone past an entry goes round only
if the pages that came after were accessed.
-/

namespace DemandPaging.FrameTable

/-- An entry leaves the table before the number of evictions passes a limit. If the hand has gone
past it, the pages that were listed since are accessed, but those that are not settled yet. -/
inductive Due (table : FrameTable) (used : FrameEntry → Prop) (orderly : Prop) (e : FrameEntry)
    (limit : ℕ) (unsettled : List FrameEntry) : Prop where
  | ahead {i : ℕ} (listed : table.entries[i]? = some e) (hand_le : table.hand ≤ i)
      (within : table.evictions + (i - table.hand) < limit)
  | behind {i : ℕ} {old fresh : List FrameEntry} (orderly : orderly)
      (listed : table.entries[i]? = some e) (lt_hand : i < table.hand)
      (split : table.entries = old ++ fresh ++ unsettled) (settled : ∀ f ∈ fresh, used f)
      (within : table.evictions + (old.length - table.hand) + i < limit)

variable {table : FrameTable} {used used' : FrameEntry → Prop} {orderly : Prop}
  {e new victim : FrameEntry} {limit : ℕ} {unsettled passed : List FrameEntry} {spaces : SpaceMap}

namespace Due

theorem mem_entries (h : table.Due used orderly e limit unsettled) : e ∈ table.entries := by
  cases h with
  | ahead listed => exact List.mem_of_getElem? listed
  | behind _ listed => exact List.mem_of_getElem? listed

theorem evictions_lt (h : table.Due used orderly e limit unsettled) : table.evictions < limit := by
  cases h with
  | ahead _ _ within => omega
  | behind _ _ _ _ _ within => omega

theorem of_used (h : table.Due used orderly e limit unsettled)
    (hused : orderly → ∀ f ∈ table.entries, used f → used' f) :
    table.Due used' orderly e limit unsettled := by
  cases h with
  | ahead listed hand_le within => exact .ahead listed hand_le within
  | behind horderly listed lt_hand split settled within =>
      refine .behind horderly listed lt_hand split (fun f hf => ?_) within
      refine hused horderly f ?_ (settled f hf)
      rw [split]
      exact List.mem_append_left _ (List.mem_append_right _ hf)

/-- It matters only of an entry that the hand has gone past whether the pages that come in are
accessed. -/
theorem of_orderly {orderly' : Prop} (h : table.Due used orderly e limit unsettled)
    (horderly : orderly → e ∈ table.entries.take table.hand → orderly') :
    table.Due used orderly' e limit unsettled := by
  cases h with
  | ahead listed hand_le within => exact .ahead listed hand_le within
  | behind horderly' listed lt_hand split settled within =>
      refine .behind (horderly horderly' ?_) listed lt_hand split settled within
      exact List.mem_of_getElem? ((List.getElem?_take_of_lt lt_hand).trans listed)

theorem push (h : table.Due used orderly e limit []) (new : FrameEntry) :
    (table.push new).Due used orderly e limit [new] := by
  have hkeeps : ∀ {i : ℕ}, table.entries[i]? = some e → (table.push new).entries[i]? = some e :=
    fun hi => (List.getElem?_append_left (List.getElem?_eq_some_iff.mp hi).1).trans hi
  cases h with
  | ahead listed hand_le within => exact .ahead (hkeeps listed) hand_le within
  | behind horderly listed lt_hand split settled within =>
      refine .behind horderly (hkeeps listed) lt_hand ?_ settled within
      rw [List.append_nil] at split
      exact congrArg (· ++ [new]) split

theorem settle (h : table.Due used orderly e limit [new]) (hnew : used new) :
    table.Due used orderly e limit [] := by
  cases h with
  | ahead listed hand_le within => exact .ahead listed hand_le within
  | @behind i old fresh horderly listed lt_hand split settled within =>
      have hsplit : table.entries = old ++ (fresh ++ [new]) ++ [] := by
        rw [split, List.append_nil, List.append_assoc]
      refine .behind horderly listed lt_hand hsplit (fun f hf => ?_) within
      rcases List.mem_append.mp hf with hf | hf
      · exact settled f hf
      · exact List.mem_singleton.mp hf ▸ hnew

theorem settle_last (h : table.Due used orderly e limit unsettled) (hone : unsettled.length ≤ 1)
    (hlast : orderly → ∀ f, table.entries.getLast? = some f → used f) :
    table.Due used orderly e limit [] := by
  rcases unsettled with _ | ⟨new, rest⟩
  · exact h
  · have hrest : rest.length = 0 := Nat.le_zero.mp (Nat.le_of_succ_le_succ hone)
    obtain rfl : rest = [] := List.length_eq_zero_iff.mp hrest
    cases h with
    | ahead listed hand_le within => exact .ahead listed hand_le within
    | behind horderly listed lt_hand split settled within =>
        have hnew : used new := hlast horderly new (by rw [split, List.getLast?_concat])
        exact (Due.behind horderly listed lt_hand split settled within).settle hnew

end Due

/-! ## An eviction -/

theorem Picks.length_passed_le_of_idle (h : table.Picks spaces passed victim) {k : ℕ}
    (hk : table.ahead[k]? = some e) (hidle : e.isAccessed spaces = false) : passed.length ≤ k := by
  by_contra hlt
  obtain ⟨rest, hrest⟩ := h.ordered
  have hmem : passed[k]? = some e := by
    rw [← hk, ← hrest, List.getElem?_append_left (Nat.lt_of_not_le hlt)]
  cases hidle.symm.trans (h.accessed e (List.mem_of_getElem? hmem))

def evicted (table : FrameTable) (index : ℕ) : FrameTable :=
  { { table with hand := (index + 1) % table.size }.removeAt index with
    evictions := table.evictions + 1 }

theorem hand_evicted {index : ℕ} (hindex : index < table.size) :
    (table.evicted index).hand = if index + 1 = table.size then 0 else index :=
  hand_removeAt hindex

theorem entries_evicted (table : FrameTable) (index : ℕ) :
    (table.evicted index).entries = table.entries.eraseIdx index := rfl

/-- An entry that the hand comes to in this round is the victim, or one entry nearer to the hand. -/
theorem Due.evict_of_le {i index : ℕ} (hlisted : table.entries[i]? = some e)
    (hfound : table.entries[index]? = some victim) (hle : index ≤ i)
    (hwithin : table.evictions + (i - index) < limit) :
    victim = e ∨ (table.evicted index).Due used orderly e limit [] := by
  rcases Nat.eq_or_lt_of_le hle with rfl | hlt
  · exact .inl (Option.some.inj (hfound.symm.trans hlisted))
  · have hi : i < table.size := (List.getElem?_eq_some_iff.mp hlisted).1
    have hhand : (table.evicted index).hand = index :=
      (hand_evicted (Nat.lt_trans hlt hi)).trans (if_neg (by omega))
    refine .inr (.ahead (i := i - 1) ?_ (by omega) ?_)
    · rw [entries_evicted, List.getElem?_eraseIdx, if_neg (by omega), ← hlisted]
      exact congrArg _ (by omega)
    · rw [hhand]
      change table.evictions + 1 + (i - 1 - index) < limit
      omega

/-- An entry that the hand comes to in the next round is one eviction nearer to its turn, and its
turn comes before that of the entries that were listed since. -/
theorem Due.evict_of_gt {i index : ℕ} {old fresh : List FrameEntry} (horderly : orderly)
    (hlisted : table.entries[i]? = some e) (hlt : i < index) (hsplit : table.entries = old ++ fresh)
    (hold : index < old.length) (hfresh : ∀ f ∈ fresh, used f)
    (hwithin : table.evictions + (old.length - index) + i < limit) :
    (table.evicted index).Due used orderly e limit [] := by
  have hlength : table.size = old.length + fresh.length := by
    rw [size, hsplit, List.length_append]
  have hindex : index < table.size := by omega
  have hlisted' : (table.evicted index).entries[i]? = some e := by
    rw [entries_evicted, List.getElem?_eraseIdx, if_pos hlt, hlisted]
  rcases Nat.eq_or_lt_of_le (Nat.succ_le_of_lt hindex) with hlast | hmore
  · have hhand : (table.evicted index).hand = 0 := (hand_evicted hindex).trans (if_pos hlast)
    refine .ahead (i := i) hlisted' (by omega) ?_
    rw [hhand]
    change table.evictions + 1 + (i - 0) < limit
    omega
  · have hhand : (table.evicted index).hand = index :=
      (hand_evicted hindex).trans (if_neg (by omega))
    have hsplit' : (table.evicted index).entries = old.eraseIdx index ++ fresh ++ [] := by
      rw [entries_evicted, hsplit, List.eraseIdx_append_of_lt_length hold, List.append_nil]
    refine .behind (i := i) horderly hlisted' (by omega) hsplit' hfresh ?_
    rw [hhand, List.length_eraseIdx_of_lt hold]
    change table.evictions + 1 + (old.length - 1 - index) + i < limit
    omega

/-- Every eviction takes the entry that waits, or brings its turn nearer. -/
theorem Due.evict (h : table.Due (fun f => f.isAccessed spaces = true) orderly e limit [])
    (hidle : e.isAccessed spaces = false) (hpicks : table.Picks spaces passed victim)
    (hrests : table.Rests) (hnodup : table.entries.Nodup)
    (hused : ∀ f ∈ table.entries, f ≠ victim → f ∉ passed → f.isAccessed spaces = true → used' f) :
    victim = e ∨
      (table.evicted ((table.hand + passed.length) % table.size)).Due used' orderly e limit [] := by
  have hfound := hpicks.found
  have hpassed := hpicks.length_passed_le
  have hhand := hrests.hand_lt (List.length_pos_iff.mp hpicks.size_pos)
  cases h with
  | @ahead i listed hand_le within =>
      have hi : i < table.size := (List.getElem?_eq_some_iff.mp listed).1
      have hturn : table.ahead[i - table.hand]? = some e := by
        rw [getElem?_ahead (by omega), ← listed, Nat.add_sub_cancel' hand_le, Nat.mod_eq_of_lt hi]
      have hle := hpicks.length_passed_le_of_idle hturn hidle
      have hmod : (table.hand + passed.length) % table.size = table.hand + passed.length :=
        Nat.mod_eq_of_lt (by omega)
      rw [hmod] at hfound ⊢
      exact evict_of_le listed hfound (by omega) (by omega)
  | @behind i old fresh horderly listed lt_hand split settled within =>
      rw [List.append_nil] at split
      have hturn : table.ahead[table.size - table.hand + i]? = some e := by
        rw [getElem?_ahead (by omega), ← listed, show table.hand + (table.size - table.hand + i) =
          i + table.size by omega, Nat.add_mod_right, Nat.mod_eq_of_lt (by omega)]
      have hle := hpicks.length_passed_le_of_idle hturn hidle
      rcases Nat.lt_or_ge (table.hand + passed.length) table.size with hround | hround
      · rw [Nat.mod_eq_of_lt hround] at hfound ⊢
        generalize hindex : table.hand + passed.length = index at hfound hround ⊢
        have hvictim : victim.isAccessed spaces = false := by
          rcases hpicks.chosen with ⟨-, hvictim⟩ | ⟨hall, -⟩
          · exact hvictim
          · have hfull := congrArg List.length hall
            rw [length_ahead] at hfull
            omega
        -- the pages that were listed since are all accessed, so the victim is one of the others
        have hold : index < old.length := by
          by_contra hge
          rw [split, List.getElem?_append_right (Nat.le_of_not_lt hge)] at hfound
          cases hvictim.symm.trans (settled victim (List.mem_of_getElem? hfound))
        -- nor did the scan pass any of them, so they stay accessed
        have hfresh : ∀ f ∈ fresh, used' f := by
          intro f hf
          refine hused f (split ▸ List.mem_append_right _ hf) ?_ (fun hpass => ?_) (settled f hf)
          · rintro rfl
            cases hvictim.symm.trans (settled f hf)
          · obtain ⟨k, hk⟩ := List.mem_iff_getElem?.mp hpass
            have hklt : k < passed.length := (List.getElem?_eq_some_iff.mp hk).1
            have hat := getElem?_of_passed hpicks.ordered hk
            rw [Nat.mod_eq_of_lt (by omega), split, List.getElem?_append_left (by omega)] at hat
            rw [split] at hnodup
            exact (List.disjoint_of_nodup_append hnodup) (List.mem_of_getElem? hat) hf
        exact .inr (evict_of_gt horderly listed (by omega) split hold hfresh (by omega))
      · have hmod : (table.hand + passed.length) % table.size =
            table.hand + passed.length - table.size := by
          rw [Nat.mod_eq_sub_mod hround, Nat.mod_eq_of_lt (by omega)]
        rw [hmod] at hfound ⊢
        exact evict_of_le listed hfound (by omega) (by omega)

end DemandPaging.FrameTable
