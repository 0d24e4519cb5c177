import DemandPaging.Proofs.ExactCopies.Partition
import DemandPaging.Proofs.Lineage

/-! # The accesses of a copy

A copy accesses the pages of its range one after the other, and moves the bytes of each before it
accesses the next. It ends at the first page that cannot be accessed, with that error.
-/

namespace DemandPaging

variable {m m₁ m' : Machine} {s : SpaceId} {write : Bool} {chunk : Chunk}
  {chunks done rest : List Chunk} {e : Errno} {error : Option Errno}
  {shown other : VirtPage → PageBytes} {va : VirtAddr} {buffer data result : Bytes}

namespace MachineM

/-! ## How a copy proceeds -/

/-- The pages of some parts are read one after the other: each is accessed, and its frame holds the
bytes that are shown. -/
inductive Accesses (s : SpaceId) (shown : VirtPage → PageBytes) :
    List Chunk → Machine → Machine → Prop where
  | nil {m : Machine} : Accesses s shown [] m m
  | cons {chunk : Chunk} {chunks : List Chunk} {m m₁ m' : Machine} {frame : Frame}
      (access : userFrame s chunk.page false m = .ok frame m₁)
      (load : m₁.pool.load frame = .ok (shown chunk.page))
      (rest : Accesses s shown chunks m₁ m') : Accesses s shown (chunk :: chunks) m m'

/-- Some parts of the data are written one after the other: the page of each is accessed, and the
part replaces bytes of its frame. -/
inductive Stores (s : SpaceId) (data : Bytes) : List Chunk → Machine → Machine → Prop where
  | nil {m : Machine} : Stores s data [] m m
  | cons {chunk : Chunk} {chunks : List Chunk} {m m₁ m' : Machine} {frame : Frame}
      {bytes : PageBytes} {pool : FramePool}
      (access : userFrame s chunk.page true m = .ok frame m₁)
      (load : m₁.pool.load frame = .ok bytes)
      (store : m₁.pool.store frame
        (bytes.overlay chunk.offset (data.slice chunk.position chunk.length)) = .ok pool)
      (rest : Stores s data chunks { m₁ with pool } m') : Stores s data (chunk :: chunks) m m'

/-- How a copy ends that has some parts left: none, or one whose page cannot be accessed. -/
inductive Halts (s : SpaceId) (write : Bool) :
    List Chunk → Option Errno → Machine → Machine → Prop where
  | done {m : Machine} : Halts s write [] none m m
  | refused {chunk : Chunk} {chunks : List Chunk} {m m' : Machine} {e : Errno}
      (access : userFrame s chunk.page write m = .error (.failed e) m') :
      Halts s write (chunk :: chunks) (some e) m m'

/-! ## Reads -/

theorem Accesses.congr (h : Accesses s shown chunks m m')
    (heq : ∀ chunk ∈ chunks, other chunk.page = shown chunk.page) :
    Accesses s other chunks m m' := by
  induction h with
  | nil => exact .nil
  | cons access load rest ih =>
      refine .cons access ?_ (ih fun chunk hchunk => heq chunk (List.mem_cons_of_mem _ hchunk))
      rw [load, heq _ List.mem_cons_self]

theorem Accesses.readChunks_eq (h : Accesses s shown done m m₁) (rest : List Chunk)
    (buffer : Bytes) :
    readChunks s (done ++ rest) buffer m = readChunks s rest (Chunk.fill shown done buffer) m₁ := by
  induction h generalizing buffer with
  | nil => rfl
  | @cons chunk chunks m m₁ m' frame access load later ih =>
      rw [List.cons_append]
      exact (readChunks_of_ok access load).trans (ih _)

theorem Halts.readChunks_eq (h : Halts s false rest error m m') (buffer : Bytes) :
    readChunks s rest buffer m = .ok (buffer, error) m' := by
  cases h with
  | done => rfl
  | refused access => exact readChunks_of_failed access

/-- A read has accessed the pages of some of its parts when it ends. -/
theorem exists_accesses (hnodup : (chunks.map Chunk.page).Nodup)
    (h : readChunks s chunks buffer m = .ok (result, error) m') :
    ∃ shown done rest m₁, chunks = done ++ rest ∧ Accesses s shown done m m₁ ∧
      Halts s false rest error m₁ m' ∧ result = Chunk.fill shown done buffer := by
  induction chunks generalizing m buffer with
  | nil =>
      obtain ⟨hvalue, rfl⟩ := EStateM.Result.ok.inj h
      obtain ⟨rfl, rfl⟩ := Prod.mk.inj hvalue
      exact ⟨fun _ => .zero, [], [], m, rfl, .nil, .done, rfl⟩
  | cons chunk chunks ih =>
      rw [List.map_cons, List.nodup_cons] at hnodup
      obtain ⟨hnot, hnodup⟩ := hnodup
      cases haccess : userFrame s chunk.page false m with
      | error stop m₁ =>
          cases stop with
          | panicked p => cases (readChunks_of_panicked haccess).symm.trans h
          | failed e =>
              obtain ⟨hvalue, rfl⟩ :=
                EStateM.Result.ok.inj ((readChunks_of_failed haccess).symm.trans h)
              obtain ⟨rfl, rfl⟩ := Prod.mk.inj hvalue
              exact ⟨fun _ => .zero, [], chunk :: chunks, m, rfl, .nil, .refused haccess, rfl⟩
      | ok frame m₁ =>
          cases hload : m₁.pool.load frame with
          | error p =>
              have htry : attempt (userFrame s chunk.page false) m = .ok (.ok frame) m₁ := by
                rw [attempt, haccess]
              rw [readChunks, bind_of_ok htry] at h
              cases (bind_of_error (loadFrame_of_error hload)).symm.trans h
          | ok bytes =>
              obtain ⟨shown, done, rest, m₂, rfl, hdone, hhalts, rfl⟩ :=
                ih hnodup ((readChunks_of_ok haccess hload).symm.trans h)
              have hlater : ∀ part ∈ done,
                  Function.update shown chunk.page bytes part.page = shown part.page := by
                intro part hpart
                refine Function.update_of_ne (fun heq => hnot ?_) _ _
                rw [← heq]
                exact List.mem_map_of_mem (List.mem_append_left _ hpart)
              refine ⟨Function.update shown chunk.page bytes, chunk :: done, rest, m₂, rfl,
                .cons haccess ?_ (hdone.congr hlater), hhalts, ?_⟩
              · rw [Function.update_self, hload]
              · refine (Chunk.fill_congr hlater _).symm.trans ?_
                rw [Chunk.fill, Chunk.fill, List.foldl_cons, Function.update_self]

/-! ## Writes -/

theorem Stores.writeChunks_eq (h : Stores s data done m m₁) (rest : List Chunk) :
    (done ++ rest).forM (writeChunk s data) m = rest.forM (writeChunk s data) m₁ := by
  induction h with
  | nil => rfl
  | @cons chunk chunks m m₁ m' frame bytes pool access load store later ih =>
      have hchunk : writeChunk s data chunk m = .ok () { m₁ with pool } := by
        rw [writeChunk, bind_of_ok access, bind_of_ok (loadFrame_of_ok load)]
        exact storeFrame_of_ok store
      exact (bind_of_ok hchunk).trans ih

def writeAnswer (error : Option Errno) (m : Machine) : EStateM.Result Stop Machine Unit :=
  error.elim (.ok () m) fun e => .error (.failed e) m

theorem Halts.writeChunks_eq (h : Halts s true rest error m m') (data : Bytes) :
    rest.forM (writeChunk s data) m = writeAnswer error m' := by
  cases h with
  | done => rfl
  | @refused chunk chunks m m' e access =>
      have hchunk : writeChunk s data chunk m = .error (.failed e) m' := bind_of_error access
      exact bind_of_error hchunk

/-- A write has stored some of its parts when it ends. -/
theorem exists_stores (h : chunks.forM (writeChunk s data) m = writeAnswer error m') :
    ∃ done rest m₁, chunks = done ++ rest ∧ Stores s data done m m₁ ∧
      Halts s true rest error m₁ m' := by
  induction chunks generalizing m with
  | nil =>
      cases error with
      | none =>
          obtain ⟨-, rfl⟩ := EStateM.Result.ok.inj h
          exact ⟨[], [], m, rfl, .nil, .done⟩
      | some e => cases h
  | cons chunk chunks ih =>
      change (writeChunk s data chunk >>= fun _ => chunks.forM (writeChunk s data)) m = _ at h
      have hstops : ∀ stop m₂, writeChunk s data chunk m = .error stop m₂ →
          ∃ e, stop = .failed e ∧ error = some e ∧ m₂ = m' := by
        intro stop m₂ hchunk
        replace h := (bind_of_error hchunk).symm.trans h
        cases error with
        | none => cases h
        | some e =>
            obtain ⟨rfl, rfl⟩ := EStateM.Result.error.inj h
            exact ⟨e, rfl, rfl, rfl⟩
      cases haccess : userFrame s chunk.page true m with
      | error stop m₁ =>
          obtain ⟨e, rfl, rfl, rfl⟩ := hstops stop m₁ (bind_of_error haccess)
          exact ⟨[], chunk :: chunks, m, rfl, .nil, .refused haccess⟩
      | ok frame m₁ =>
          cases hload : m₁.pool.load frame with
          | error p =>
              obtain ⟨e, hstop, -⟩ := hstops (.panicked p) m₁
                ((bind_of_ok haccess).trans (bind_of_error (loadFrame_of_error hload)))
              cases hstop
          | ok bytes =>
              cases hstore : m₁.pool.store frame
                  (bytes.overlay chunk.offset (data.slice chunk.position chunk.length)) with
              | error p =>
                  obtain ⟨e, hstop, -⟩ := hstops (.panicked p) m₁ ((bind_of_ok haccess).trans
                    ((bind_of_ok (loadFrame_of_ok hload)).trans (storeFrame_of_error hstore)))
                  cases hstop
              | ok pool =>
                  have hchunk : writeChunk s data chunk m = .ok () { m₁ with pool } := by
                    rw [writeChunk, bind_of_ok haccess, bind_of_ok (loadFrame_of_ok hload)]
                    exact storeFrame_of_ok hstore
                  obtain ⟨done, rest, m₂, rfl, hdone, hhalts⟩ :=
                    ih ((bind_of_ok hchunk).symm.trans h)
                  exact ⟨chunk :: done, rest, m₂, rfl, .cons haccess hload hstore hdone, hhalts⟩

/-! ## Whole copies -/

/-- How many bytes of a range were reached when some of its parts are left. -/
def reached (length : ℕ) (rest : List Chunk) : ℕ :=
  rest.head?.elim length Chunk.position

/-- A read of a range that is not refused ends at the first page that cannot be accessed, or at the
end of the range, and the bytes before it have arrived. -/
theorem readUser_iff (hrange : isUserRange va buffer.size = true) :
    readUser s va buffer m = .ok (result, error) m' ↔
      ∃ shown done rest m₁, Chunk.split va buffer.size = done ++ rest ∧
        Accesses s shown done m m₁ ∧ Halts s false rest error m₁ m' ∧
        Chunk.Received va shown buffer (reached buffer.size rest) result := by
  have hread : readUser s va buffer m =
      readChunks s (Chunk.split va buffer.size) buffer m := by
    have htry : attempt (userChunks va buffer.size) m =
        .ok (.ok (Chunk.split va buffer.size)) m := by
      simp only [attempt, userChunks, if_pos hrange]
      rfl
    rw [readUser]
    exact bind_of_ok htry
  have hreceived : ∀ shown done rest, Chunk.split va buffer.size = done ++ rest →
      Chunk.Received va shown buffer (reached buffer.size rest)
        (Chunk.fill shown done buffer) := by
    intro shown done rest hsplit
    cases rest with
    | nil =>
        rw [List.append_nil] at hsplit
        subst hsplit
        exact Chunk.received_of_all va shown buffer
    | cons chunk rest => exact Chunk.received_of_some shown hsplit
  rw [hread]
  constructor
  · intro h
    have hnodup : ((Chunk.split va buffer.size).map Chunk.page).Nodup := by
      refine List.pairwise_map.mpr ((Chunk.ascending_split va buffer.size).imp ?_)
      rintro a b hlt heq
      rw [heq] at hlt
      exact lt_irrefl _ hlt
    obtain ⟨shown, done, rest, m₁, hsplit, hdone, hhalts, rfl⟩ := exists_accesses hnodup h
    exact ⟨shown, done, rest, m₁, hsplit, hdone, hhalts, hreceived shown done rest hsplit⟩
  · rintro ⟨shown, done, rest, m₁, hsplit, hdone, hhalts, hresult⟩
    rw [hsplit, hdone.readChunks_eq, hhalts.readChunks_eq,
      hresult.unique (hreceived shown done rest hsplit)]

theorem writeUser_iff (hrange : isUserRange va data.size = true) :
    writeUser s va data m = writeAnswer error m' ↔
      ∃ done rest m₁, Chunk.split va data.size = done ++ rest ∧ Stores s data done m m₁ ∧
        Halts s true rest error m₁ m' := by
  have hwrite : writeUser s va data m =
      (Chunk.split va data.size).forM (writeChunk s data) m := by
    rw [writeUser]
    refine bind_of_ok ?_
    rw [userChunks, if_pos hrange]
    rfl
  rw [hwrite]
  constructor
  · exact exists_stores
  · rintro ⟨done, rest, m₁, hsplit, hdone, hhalts⟩
    rw [hsplit, hdone.writeChunks_eq, hhalts.writeChunks_eq]

end MachineM

end DemandPaging
