import DemandPaging.Proofs.Clock.Circle
import DemandPaging.Proofs.Sessions

/-! # Going round the frame table

Scan after scan, the hand goes round the circle of the frame table. Entries come and leave between
two scans, and the entries that stay are examined in the same turn all along.
-/

namespace DemandPaging

/-! ## Going round a list -/

section Laps

variable {α : Type}

/-- The first entries that one comes to going round a list again and again. -/
def laps : ℕ → List α → List α
  | 0, _ => []
  | _ + 1, [] => []
  | count + 1, a :: rest => a :: laps count (rest ++ [a])

theorem laps_nil (count : ℕ) : laps count ([] : List α) = [] := by
  cases count <;> rfl

theorem laps_add (m n : ℕ) (l : List α) : laps (m + n) l = laps m l ++ laps n (l.rotate m) := by
  induction m generalizing l with
  | zero => rw [Nat.zero_add, List.rotate_zero, laps, List.nil_append]
  | succ m ih =>
      cases l with
      | nil => simp only [laps_nil, List.rotate_nil, List.append_nil]
      | cons a rest =>
          rw [Nat.add_right_comm, laps, laps, ih, List.cons_append,
            List.rotate_cons_succ]

variable (keep : α → Bool)

theorem filter_laps (count : ℕ) (l : List α) :
    (laps count l).filter keep = laps ((laps count l).countP keep) (l.filter keep) := by
  induction count generalizing l with
  | zero => rfl
  | succ count ih =>
      cases l with
      | nil => rfl
      | cons a rest =>
          have hrest := ih (rest ++ [a])
          rw [List.filter_append] at hrest
          by_cases ha : keep a = true
          · rw [List.filter_cons_of_pos ha, List.filter_nil] at hrest
            rw [laps, List.filter_cons_of_pos ha, List.countP_cons_of_pos ha,
              List.filter_cons_of_pos ha, laps, hrest]
          · rw [List.filter_cons_of_neg ha, List.filter_nil, List.append_nil] at hrest
            rw [laps, List.filter_cons_of_neg ha, List.countP_cons_of_neg ha,
              List.filter_cons_of_neg ha, hrest]

theorem filter_rotate (count : ℕ) (l : List α) :
    (l.rotate count).filter keep = (l.filter keep).rotate ((laps count l).countP keep) := by
  induction count generalizing l with
  | zero => rw [List.rotate_zero, laps, List.countP_nil, List.rotate_zero]
  | succ count ih =>
      cases l with
      | nil => simp only [List.rotate_nil, List.filter_nil]
      | cons a rest =>
          rw [List.rotate_cons_succ, ih, List.filter_append, laps]
          by_cases ha : keep a = true
          · rw [List.filter_cons_of_pos ha, List.filter_nil, List.filter_cons_of_pos ha,
              List.countP_cons_of_pos ha, List.rotate_cons_succ]
          · rw [List.filter_cons_of_neg ha, List.filter_nil, List.append_nil,
              List.filter_cons_of_neg ha, List.countP_cons_of_neg ha]

end Laps

namespace FrameTable

variable {table : FrameTable} {entries : List FrameEntry} {e : FrameEntry} {index : ℕ}
  {frame : Frame} {spaces : SpaceMap}

/-! ## A scan -/

/-- A scan clears the accessed flag of the entry at the hand and moves on. -/
def pass (entries : List FrameEntry) (e : FrameEntry) (state : Scan) : Scan :=
  ⟨state.hand % entries.length, (state.hand % entries.length + 1) % entries.length,
    e.clearAccessed state.spaces⟩

/-- The entries that a scan of at most `steps` steps examines, one after another. -/
def examinedBy (entries : List FrameEntry) : ℕ → Scan → List FrameEntry
  | 0, _ => []
  | steps + 1, state =>
    match entries[state.hand % entries.length]? with
    | none => []
    | some e =>
      e :: if e.isAccessed state.spaces then examinedBy entries steps (pass entries e state) else []

def examined (table : FrameTable) (spaces : SpaceMap) : List FrameEntry :=
  examinedBy table.entries (2 * table.size) ⟨table.hand, table.hand, spaces⟩

variable {steps : ℕ} {state : Scan}

theorem scan_of_accessed (he : entries[state.hand % entries.length]? = some e)
    (haccessed : e.isAccessed state.spaces = true) (steps : ℕ) :
    scan entries (steps + 1) state = scan entries steps (pass entries e state) ∧
      examinedBy entries (steps + 1) state =
        e :: examinedBy entries steps (pass entries e state) := by
  simp only [scan, examinedBy, he, haccessed, if_true, pass, and_self]

theorem scan_of_idle (he : entries[state.hand % entries.length]? = some e)
    (hidle : e.isAccessed state.spaces = false) (steps : ℕ) :
    scan entries (steps + 1) state =
        ⟨state.hand % entries.length, (state.hand % entries.length + 1) % entries.length,
          state.spaces⟩ ∧
      examinedBy entries (steps + 1) state = [e] := by
  simp only [scan, examinedBy, he, hidle, Bool.false_eq_true, if_false, and_self]

theorem examinedBy_ne_nil (hne : entries ≠ []) (steps : ℕ) (state : Scan) :
    examinedBy entries (steps + 1) state ≠ [] := by
  have hlt : state.hand % entries.length < entries.length :=
    Nat.mod_lt _ (List.length_pos_iff.mpr hne)
  rw [examinedBy, List.getElem?_eq_getElem hlt]
  exact List.cons_ne_nil _ _

/-- What a scan that examines some entries does: it goes round the table from the hand on, clears
the accessed flags of the entries that it passes, ends at the last one that it examines and leaves
the hand behind it. -/
structure Turns (entries : List FrameEntry) (steps : ℕ) (state : Scan) : Prop where
  around : examinedBy entries steps state =
    laps (examinedBy entries steps state).length (entries.rotate state.hand)
  bounded : (examinedBy entries steps state).length ≤ steps
  ended : entries[(scan entries steps state).examined]? =
    (examinedBy entries steps state).getLast?.or entries[state.examined]?
  onward : entries.rotate (scan entries steps state).hand =
    entries.rotate (state.hand + (examinedBy entries steps state).length)
  cleared : ∃ passed, passed <+: examinedBy entries steps state ∧
    (examinedBy entries steps state).length ≤ passed.length + 1 ∧
    (scan entries steps state).spaces = FrameEntry.clearAll passed state.spaces
  inside : state.hand < entries.length → (scan entries steps state).hand < entries.length

theorem rotate_pass (entries : List FrameEntry) (e : FrameEntry) (state : Scan) :
    entries.rotate (pass entries e state).hand = entries.rotate (state.hand + 1) := by
  rw [pass, List.rotate_mod, ← List.rotate_rotate, List.rotate_mod, List.rotate_rotate]

/-- The entry at the hand comes first in the circle, and last once the hand is past it. -/
theorem laps_rotate (he : entries[state.hand % entries.length]? = some e) (count : ℕ) :
    laps (count + 1) (entries.rotate state.hand) =
      e :: laps count (entries.rotate (pass entries e state).hand) := by
  have hpos : 0 < entries.length := Nat.zero_lt_of_lt (List.getElem?_eq_some_iff.mp he).1
  have hfirst : (entries.rotate state.hand)[0]? = some e := by
    rw [List.getElem?_rotate hpos, Nat.zero_add, he]
  rw [rotate_pass, ← List.rotate_rotate]
  cases hrotate : entries.rotate state.hand with
  | nil =>
      rw [hrotate] at hfirst
      cases hfirst
  | cons first rest =>
      rw [hrotate] at hfirst
      obtain rfl : first = e := Option.some.inj hfirst
      rw [laps, List.rotate_cons_succ, List.rotate_zero]

theorem Turns.of_pass (he : entries[state.hand % entries.length]? = some e)
    (haccessed : e.isAccessed state.spaces = true)
    (h : Turns entries steps (pass entries e state)) : Turns entries (steps + 1) state := by
  obtain ⟨hscan, hexamined⟩ := scan_of_accessed he haccessed steps
  obtain ⟨passed, hpassed, hmost, hcleared⟩ := h.cleared
  constructor
  case around =>
    rw [hexamined, List.length_cons, laps_rotate he, ← h.around]
  case bounded =>
    rw [hexamined, List.length_cons]
    exact Nat.succ_le_succ h.bounded
  case ended =>
    have hlast : entries[(pass entries e state).examined]? = some e := he
    rw [hscan, hexamined, h.ended, hlast, List.getLast?_cons, Option.or_some, Option.some_or]
  case onward =>
    rw [hscan, hexamined, h.onward, ← List.rotate_rotate, rotate_pass, List.rotate_rotate,
      List.length_cons, Nat.add_assoc, Nat.add_comm 1]
  case cleared =>
    refine ⟨e :: passed, ?_, ?_, ?_⟩
    · rw [hexamined]
      exact List.cons_prefix_cons.mpr ⟨rfl, hpassed⟩
    · rw [hexamined]
      exact Nat.succ_le_succ hmost
    · rw [hscan, hcleared]
      rfl
  case inside =>
    rw [hscan]
    exact fun hlt => h.inside (Nat.mod_lt _ (Nat.zero_lt_of_lt hlt))

theorem turns_of_idle (he : entries[state.hand % entries.length]? = some e)
    (hidle : e.isAccessed state.spaces = false) : Turns entries (steps + 1) state := by
  obtain ⟨hscan, hexamined⟩ := scan_of_idle he hidle steps
  constructor
  case around =>
    rw [hexamined, List.length_singleton, laps_rotate he, laps]
  case bounded =>
    rw [hexamined]
    exact Nat.le_add_left 1 steps
  case ended =>
    rw [hscan, hexamined, he]
    rfl
  case onward =>
    rw [hscan, hexamined]
    exact rotate_pass entries e state
  case cleared =>
    refine ⟨[], List.nil_prefix, ?_, ?_⟩
    · rw [hexamined]
      exact Nat.le_refl 1
    · rw [hscan]
      rfl
  case inside =>
    rw [hscan]
    exact fun hlt => Nat.mod_lt _ (Nat.zero_lt_of_lt hlt)

theorem turns (hne : entries ≠ []) (steps : ℕ) (state : Scan) : Turns entries steps state := by
  induction steps generalizing state with
  | zero => exact ⟨rfl, Nat.le_refl 0, rfl, rfl, ⟨[], List.nil_prefix, Nat.zero_le _, rfl⟩, id⟩
  | succ steps ih =>
      have hlt : state.hand % entries.length < entries.length :=
        Nat.mod_lt _ (List.length_pos_iff.mpr hne)
      have he := List.getElem?_eq_getElem hlt
      cases hflag : (entries[state.hand % entries.length]).isAccessed state.spaces with
      | true => exact .of_pass he hflag (ih _)
      | false => exact turns_of_idle he hflag

/-- What the scan for a victim does. -/
structure Sweeps (table : FrameTable) (spaces : SpaceMap) : Prop where
  around : table.examined spaces = laps (table.examined spaces).length table.ahead
  bounded : (table.examined spaces).length ≤ 2 * table.size
  ended : ∃ victim, (table.examined spaces).getLast? = some victim ∧
    table.entries[(table.victimScan spaces).examined]? = some victim
  onward : { table with hand := (table.victimScan spaces).hand }.ahead =
    table.ahead.rotate (table.examined spaces).length
  cleared : ∃ passed, passed <+: table.examined spaces ∧
    (table.examined spaces).length ≤ passed.length + 1 ∧
    (table.victimScan spaces).spaces = FrameEntry.clearAll passed spaces

theorem Rests.sweeps (h : table.Rests) (hne : table.entries ≠ []) (spaces : SpaceMap) :
    table.Sweeps spaces := by
  have hturns := turns hne (2 * table.size) ⟨table.hand, table.hand, spaces⟩
  have hhand := h.hand_lt hne
  refine ⟨hturns.around, hturns.bounded, ?_, ?_, hturns.cleared⟩
  · have hsteps : 2 * table.size = 2 * table.size - 1 + 1 := by omega
    have hsome : table.examined spaces ≠ [] := by
      rw [examined, hsteps]
      exact examinedBy_ne_nil hne _ _
    obtain ⟨victim, hvictim⟩ : ∃ victim, (table.examined spaces).getLast? = some victim :=
      ⟨_, List.getLast?_eq_some_getLast hsome⟩
    refine ⟨victim, hvictim, hturns.ended.trans ?_⟩
    change (table.examined spaces).getLast?.or _ = _
    rw [hvictim, Option.some_or]
  · exact hturns.onward.trans (List.rotate_rotate ..).symm

/-! ## Requests -/

/-- A request to the frame table. -/
inductive Request where
  | push (e : FrameEntry)
  | removeAt (index : ℕ)
  | remove (frame : Frame)
  /-- A victim is chosen in these address spaces. -/
  | scan (spaces : SpaceMap)

/-- What a request gives. -/
inductive Answer where
  | done
  | removed (e : Option FrameEntry)
  /-- The position of the victim, and the entries examined until it was found. -/
  | victim (index : ℕ) (examined : List FrameEntry)

def serve (table : FrameTable) : Request → Except Panic (Answer × FrameTable)
  | .push e => .ok (.done, table.push e)
  | .removeAt index =>
    match table.entries[index]? with
    | none => .error .outOfBounds
    | some e => .ok (.removed (some e), table.removeAt index)
  | .remove frame =>
    .ok (.removed (table.entries.find? (·.frame == frame)), table.removeFrame frame)
  | .scan spaces =>
    if table.isEmpty then .error .noFrameToEvict
    else
      .ok (.victim (table.victimScan spaces).examined (table.examined spaces),
        { table with hand := (table.victimScan spaces).hand })

/-- The entries examined for a request. -/
def Answer.examined : Answer → List FrameEntry
  | .victim _ examined => examined
  | .done | .removed _ => []

/-- The entries examined for some requests, one after another. -/
def examinedIn (answers : List (Except Panic Answer)) : List FrameEntry :=
  answers.flatMap fun answer =>
    match answer with
    | .ok answer => answer.examined
    | .error _ => []

/-- Entries of a kind neither come nor leave. -/
def Spares (keep : FrameEntry → Bool) (table : FrameTable) : Request → Prop
  | .push e => keep e = false
  | .removeAt index => ∀ e, table.entries[index]? = some e → keep e = false
  | .remove frame => ∀ e, table.entries.find? (·.frame == frame) = some e → keep e = false
  | .scan _ => True

/-- The entries of the table are a circle: whichever leave, and in whatever order, the hand comes to
the others in the order in which it would have come to them. -/
structure Circles (table : FrameTable) : Prop where
  rests : table.entries = [] ∧ table.hand = 0 ∨ table.hand < table.size
  leaves : ∀ {index e}, table.entries[index]? = some e → table.Leaves index e
  first : ∀ frame, table.entries.find? (·.frame == frame) = none ∧ table.removeFrame frame = table ∨
    ∃ index e, table.entries.find? (·.frame == frame) = some e ∧ table.entries[index]? = some e ∧
      table.removeFrame frame = table.removeAt index
  commute : ∀ {i j}, i < j → j < table.size →
    (table.removeAt j).removeAt i = (table.removeAt i).removeAt (j - 1)
  reordered : ∀ {frames others : List Frame}, frames.Perm others →
    frames.foldl removeFrame table = others.foldl removeFrame table
  sweeps : table.entries ≠ [] → ∀ spaces, table.Sweeps spaces
  spared : ∀ keep requests, Session.Along (Spares keep) serve table requests →
    ∃ count, (examinedIn (Session.run serve table requests).answers).filter keep =
        laps count (table.ahead.filter keep) ∧
      (Session.run serve table requests).state.ahead.filter keep =
        (table.ahead.filter keep).rotate count

variable {keep : FrameEntry → Bool} {request : Request} {answer : Answer} {next : FrameTable}

/-- What an answered request was, and what it did. -/
theorem serve_cases (hserve : table.serve request = .ok (answer, next)) :
    (∃ e, request = .push e ∧ answer = .done ∧ next = table.push e) ∨
    (∃ index e, request = .removeAt index ∧ table.entries[index]? = some e ∧
      answer = .removed (some e) ∧ next = table.removeAt index) ∨
    (∃ frame, request = .remove frame ∧
      answer = .removed (table.entries.find? (·.frame == frame)) ∧
      next = table.removeFrame frame) ∨
    ∃ spaces, request = .scan spaces ∧ table.entries ≠ [] ∧
      answer = .victim (table.victimScan spaces).examined (table.examined spaces) ∧
      next = { table with hand := (table.victimScan spaces).hand } := by
  cases request with
  | push e =>
      cases hserve
      exact .inl ⟨e, rfl, rfl, rfl⟩
  | removeAt index =>
      simp only [serve] at hserve
      split at hserve
      · cases hserve
      · next e he =>
          cases hserve
          exact .inr (.inl ⟨index, e, rfl, he, rfl, rfl⟩)
  | remove frame =>
      cases hserve
      exact .inr (.inr (.inl ⟨frame, rfl, rfl, rfl⟩))
  | scan spaces =>
      simp only [serve] at hserve
      split at hserve
      · cases hserve
      · next hsome =>
          cases hserve
          exact .inr (.inr (.inr
            ⟨spaces, rfl, fun hnil => hsome (List.isEmpty_iff.mpr hnil), rfl, rfl⟩))

theorem Rests.serve (h : table.Rests) (hserve : table.serve request = .ok (answer, next)) :
    next.Rests := by
  rcases serve_cases hserve with ⟨e, -, -, rfl⟩ | ⟨index, -, -, -, -, rfl⟩ | ⟨frame, -, -, rfl⟩ |
    ⟨spaces, -, hne, -, rfl⟩
  · exact h.push e
  · exact table.rests_removeAt index
  · exact h.removeFrame frame
  · exact .inr ((turns hne _ _).inside (h.hand_lt hne))

theorem filter_ahead_removeAt (h : table.Rests) (he : table.entries[index]? = some e)
    (hkeep : keep e = false) :
    (table.removeAt index).ahead.filter keep = table.ahead.filter keep := by
  obtain ⟨before, after, haround, hleft, -⟩ := (leaves h he).order
  rw [hleft, haround, List.filter_append, List.filter_append,
    List.filter_cons_of_neg (Bool.eq_false_iff.mp hkeep)]

/-- The entries that neither come nor leave are passed in turn. -/
theorem Spares.step (hspares : Spares keep table request) (h : table.Rests)
    (hserve : table.serve request = .ok (answer, next)) :
    ∃ count, answer.examined.filter keep = laps count (table.ahead.filter keep) ∧
      next.ahead.filter keep = (table.ahead.filter keep).rotate count := by
  rcases serve_cases hserve with ⟨e, rfl, rfl, rfl⟩ | ⟨index, e, rfl, he, rfl, rfl⟩ |
    ⟨frame, rfl, rfl, rfl⟩ | ⟨spaces, rfl, hne, rfl, rfl⟩
  case inl =>
    obtain ⟨before, after, hahead, hpush⟩ := exists_ahead_push h e
    refine ⟨0, rfl, ?_⟩
    rw [List.rotate_zero, hpush, hahead, List.filter_append, List.filter_append,
      List.filter_cons_of_neg (Bool.eq_false_iff.mp hspares)]
  case inr.inl =>
    refine ⟨0, rfl, ?_⟩
    rw [List.rotate_zero, filter_ahead_removeAt h he (hspares e he)]
  case inr.inr.inl =>
    refine ⟨0, rfl, ?_⟩
    rw [List.rotate_zero]
    rcases table.removeFrame_cases frame with ⟨-, hsame⟩ | ⟨index, e, hfind, he, hremoved⟩
    · rw [hsame]
    · rw [hremoved, filter_ahead_removeAt h he (hspares e hfind)]
  case inr.inr.inr =>
    have hsweeps := h.sweeps hne spaces
    refine ⟨(table.examined spaces).countP keep, ?_, ?_⟩
    · change (table.examined spaces).filter keep = _
      rw [hsweeps.around, filter_laps, ← hsweeps.around]
    · rw [hsweeps.onward, filter_rotate, ← hsweeps.around]

/-- No scan skips an entry that stays, or comes to it out of turn, whatever leaves meanwhile. -/
theorem spared (h : table.Rests) (requests : List Request)
    (halong : Session.Along (Spares keep) serve table requests) :
    ∃ count, (examinedIn (Session.run serve table requests).answers).filter keep =
        laps count (table.ahead.filter keep) ∧
      (Session.run serve table requests).state.ahead.filter keep =
        (table.ahead.filter keep).rotate count := by
  induction requests generalizing table with
  | nil => exact ⟨0, rfl, (List.rotate_zero _).symm⟩
  | cons request requests ih =>
      obtain ⟨hspares, hlater⟩ := halong
      cases hserve : table.serve request with
      | error panic =>
          rw [Session.run_cons_of_error hserve]
          exact ⟨0, rfl, (List.rotate_zero _).symm⟩
      | ok served =>
          obtain ⟨answer, next⟩ := served
          rw [hserve] at hlater
          obtain ⟨first, hfirst, hturned⟩ := hspares.step h hserve
          obtain ⟨rest, hrest, hstate⟩ := ih (h.serve hserve) hlater
          rw [Session.run_cons_of_ok hserve]
          refine ⟨first + rest, ?_, ?_⟩
          · rw [laps_add, ← hturned, ← hrest, ← hfirst, ← List.filter_append]
            rfl
          · rw [hstate, hturned, List.rotate_rotate]

theorem Rests.circles (h : table.Rests) : table.Circles where
  rests := by
    by_cases hempty : table.entries = []
    · have hsize : table.size = 0 := List.length_eq_zero_iff.mpr hempty
      refine .inl ⟨hempty, ?_⟩
      unfold Rests at h
      omega
    · exact .inr (h.hand_lt hempty)
  leaves := leaves h
  first := table.removeFrame_cases
  commute := removeAt_removeAt h
  reordered := foldl_removeFrame_perm h
  sweeps := h.sweeps
  spared := fun _ requests halong => spared h requests halong

/-- Whatever is asked of a frame table, it remains a circle. -/
theorem circles_of_requests (requests : List Request) :
    (Session.run serve .empty requests).state.Circles :=
  (Session.state_of_invariant Rests (fun h hserve => h.serve hserve) requests (.inl rfl)).circles

end FrameTable

end DemandPaging
