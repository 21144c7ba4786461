import JackVM.Proofs.Runs.Rendering

/-!
# Writing on after a failure

A writer can be asked for more instructions after its sink has refused one. A
sink that takes `n` bytes then holds the first `n` bytes of all the lines that
have been asked for, wherever in a line it became full, and the writer has
counted the lines that fit. In which pieces a line reaches the sink makes no
difference.
-/

namespace JackVM

theorem take_all {whole : ByteArray} {n : Nat} (h : whole.size ≤ n) :
    whole.extract 0 n = whole := by
  have hmax := whole.extract_zero_max_size (i := n)
  rwa [Nat.max_eq_left h] at hmax

theorem take_append_take (whole more : ByteArray) (n : Nat) :
    whole.extract 0 n ++ more.extract 0 (n - whole.size) = (whole ++ more).extract 0 n := by
  rcases Nat.le_total whole.size n with h | h
  · rw [take_all h, append_take h]
  · rw [Nat.sub_eq_zero_of_le h, ByteArray.extract_same, ByteArray.append_empty, take_append h]

-- ---------------------------------------------------------------------------
-- Pieces of a line
-- ---------------------------------------------------------------------------

def joined (pieces : List ByteArray) : ByteArray := pieces.foldr (· ++ ·) .empty

namespace ByteSink

def writePieces (pieces : List ByteArray) : EStateM SinkError ByteSink Unit :=
  pieces.forM write

theorem write_fits {chunk : ByteArray} {s : ByteSink} (h : s.room chunk.size = chunk.size) :
    write chunk s = .ok () { s with bytes := s.bytes ++ chunk } := by
  simp [write, h]

theorem write_cut {chunk : ByteArray} {s : ByteSink} (h : s.room chunk.size ≠ chunk.size) :
    write chunk s =
      .error .full { s with bytes := s.bytes ++ chunk.extract 0 (s.room chunk.size) } := by
  simp [write, h]

theorem write_empty (s : ByteSink) : write .empty s = .ok () s := by
  have h : s.room ByteArray.empty.size = ByteArray.empty.size := by
    unfold room
    split <;> simp
  rw [write_fits h, ByteArray.append_empty]

/-- What is left of the room after a chunk that fits is there for the next one. -/
theorem room_append {s : ByteSink} {a : Nat} (more : ByteArray) (h : s.room a = a)
    (hm : more.size = a) (b : Nat) :
    s.room (a + b) = a + ({ s with bytes := s.bytes ++ more } : ByteSink).room b := by
  obtain ⟨_ | n, flushFails, bytes⟩ := s
  · rfl
  · simp only [room, ByteArray.size_append] at h ⊢
    omega

theorem room_append_cut {s : ByteSink} {a : Nat} (h : s.room a ≠ a) (b : Nat) :
    s.room (a + b) = s.room a ∧ s.room a < a := by
  obtain ⟨_ | n, flushFails, bytes⟩ := s
  · exact absurd rfl h
  · simp only [room] at h ⊢
    omega

theorem write_append (a b : ByteArray) : write (a ++ b) = (do write a; write b) := by
  funext s
  show _ = EStateM.bind (write a) (fun _ => write b) s
  unfold EStateM.bind
  by_cases ha : s.room a.size = a.size
  · have hroom := room_append a ha rfl b.size
    rw [write_fits ha]
    dsimp only
    by_cases hb : ({ s with bytes := s.bytes ++ a } : ByteSink).room b.size = b.size
    · rw [write_fits hb, write_fits (by rw [ByteArray.size_append, hroom, hb]),
        ByteArray.append_assoc]
    · rw [write_cut hb, write_cut (by rw [ByteArray.size_append, hroom]; omega),
        ByteArray.size_append, hroom, ByteArray.append_assoc,
        ← append_take (Nat.le_add_right ..), Nat.add_sub_cancel_left]
  · obtain ⟨hroom, hlt⟩ := room_append_cut ha b.size
    rw [write_cut ha, write_cut (by rw [ByteArray.size_append, hroom]; omega),
      ByteArray.size_append, hroom, take_append (Nat.le_of_lt hlt)]

theorem writePieces_eq (pieces : List ByteArray) : writePieces pieces = write (joined pieces) := by
  induction pieces with
  | nil => exact funext fun s => (write_empty s).symm
  | cons piece pieces ih =>
    show (do write piece; writePieces pieces) = write (piece ++ joined pieces)
    rw [write_append, ih]

end ByteSink

namespace CodeWriter

def writePieces (pieces : List ByteArray) : EStateM SinkError CodeWriter Unit := fun w =>
  match ByteSink.writePieces pieces w.sink with
  | .ok _ s => .ok () ⟨s, w.written + 1⟩
  | .error e s => .error e { w with sink := s }

theorem writePieces_eq {i : Instruction} {pieces : List ByteArray}
    (h : joined pieces = i.line.toByteArray) : writePieces pieces = write i := by
  funext w
  rw [writePieces, ByteSink.writePieces_eq, h]
  rfl

-- ---------------------------------------------------------------------------
-- One write after another
-- ---------------------------------------------------------------------------

def answer {ε σ α : Type} : EStateM.Result ε σ α → Except ε α
  | .ok a _ => .ok a
  | .error e _ => .error e

/-- Asks for every instruction, also after one has failed: the answers and the
writer in the end. -/
def attempt : List Instruction → CodeWriter → List (Except SinkError Unit) × CodeWriter
  | [], w => ([], w)
  | i :: code, w =>
    let (answers, last) := attempt code (endState (write i w))
    (answer (write i w) :: answers, last)

/-- Whether a sink that takes `n` bytes has room for the line of instruction `k`
and all lines before it. -/
def Fits (n : Nat) (code : List Instruction) (k : Nat) : Prop :=
  (codeText (code.take (k + 1))).utf8ByteSize ≤ n

instance (n : Nat) (code : List Instruction) : DecidablePred (Fits n code) :=
  fun _ => inferInstanceAs (Decidable (_ ≤ n))

/-- A writer whose sink takes `n` bytes, after it has been asked for the code. -/
structure Asked (n : Nat) (code : List Instruction) (w : CodeWriter) : Prop where
  capacity : w.sink.capacity = some n
  bytes : w.sink.bytes = (codeText code).toByteArray.extract 0 n
  written : w.written = (List.range code.length).countP (Fits n code ·)

section
variable {n : Nat} {code more : List Instruction} {i : Instruction} {w : CodeWriter}

theorem fits_append {k : Nat} (hk : k < code.length) : Fits n (code ++ more) k ↔ Fits n code k := by
  rw [Fits, Fits, List.take_append_of_le_length hk]

theorem fits_last :
    Fits n (code ++ [i]) code.length ↔
      (codeText code).utf8ByteSize + i.line.utf8ByteSize ≤ n := by
  rw [Fits, List.take_of_length_le (by simp), codeText_append, codeText_singleton,
    String.utf8ByteSize_append]

theorem line_size_pos (i : Instruction) : 0 < i.line.utf8ByteSize := by
  rw [Instruction.line, String.utf8ByteSize_append]
  exact Nat.lt_add_left _ (by decide)

theorem Fits.mono {j k : Nat} (hjk : j ≤ k) (h : Fits n code k) : Fits n code j := by
  refine Nat.le_trans ?_ h
  obtain ⟨later, hl⟩ := List.take_prefix_take_left (l := code) (Nat.succ_le_succ hjk)
  rw [← hl, codeText_append, String.utf8ByteSize_append]
  exact Nat.le_add_right _ _

theorem countP_fits :
    (List.range (code ++ [i]).length).countP (Fits n (code ++ [i]) ·) =
      (List.range code.length).countP (Fits n code ·) +
        if Fits n (code ++ [i]) code.length then 1 else 0 := by
  have hsame : ∀ k ∈ List.range code.length,
      (decide (Fits n (code ++ [i]) k) = true ↔ decide (Fits n code k) = true) := fun k hk => by
    simp [fits_append (List.mem_range.mp hk)]
  simp [List.range_succ, List.countP_append, List.countP_congr hsame, List.countP_singleton]

theorem Asked.step (h : Asked n code w) (i : Instruction) :
    answer (write i w) =
        (if Fits n (code ++ [i]) code.length then .ok () else .error .full) ∧
      Asked n (code ++ [i]) (endState (write i w)) := by
  obtain ⟨hc, hb, hw⟩ := h
  have hpos := line_size_pos i
  have hroom : w.sink.room i.line.toByteArray.size =
      min i.line.utf8ByteSize (n - (codeText code).utf8ByteSize) := by
    simp only [ByteSink.room, hc, hb, ByteArray.size_extract, String.size_toByteArray]
    omega
  have hbytes : (codeText (code ++ [i])).toByteArray.extract 0 n =
      w.sink.bytes ++ i.line.toByteArray.extract 0 (n - (codeText code).utf8ByteSize) := by
    rw [codeText_append, codeText_singleton, String.toByteArray_append, ← take_append_take, hb,
      String.size_toByteArray]
  by_cases hf : Fits n (code ++ [i]) code.length
  · have hle := fits_last.mp hf
    have hwrite : write i w = _ := write_fits (by rw [hroom, String.size_toByteArray]; omega)
    rw [hwrite, if_pos hf]
    refine ⟨rfl, hc, ?_, ?_⟩
    · rw [hbytes, take_all (by rw [String.size_toByteArray]; omega)]
      rfl
    · rw [countP_fits, if_pos hf, ← hw]
      rfl
  · have hlt := Nat.lt_of_not_le (mt fits_last.mpr hf)
    have hwrite : write i w = _ := write_cut (by rw [hroom, String.size_toByteArray]; omega)
    rw [hwrite, if_neg hf]
    refine ⟨rfl, hc, ?_, ?_⟩
    · rw [hbytes, hroom, Nat.min_eq_right (by omega)]
      rfl
    · rw [countP_fits, if_neg hf, ← hw]
      rfl

/-- Every instruction is answered by whether its line still fits, whatever was
answered before. -/
theorem Asked.attempt (h : Asked n code w) (more : List Instruction) :
    (attempt more w).1 = (List.range' code.length more.length).map
        (fun k => if Fits n (code ++ more) k then .ok () else .error .full) ∧
      Asked n (code ++ more) (attempt more w).2 := by
  induction more generalizing code w with
  | nil => simpa [CodeWriter.attempt] using h
  | cons i more ih =>
    obtain ⟨hanswer, hstep⟩ := h.step i
    obtain ⟨hanswers, hlast⟩ := ih hstep
    have hfirst : Fits n (code ++ i :: more) code.length ↔ Fits n (code ++ [i]) code.length := by
      rw [List.append_cons]
      exact fits_append (by simp)
    refine ⟨?_, List.append_cons .. ▸ hlast⟩
    rw [List.length_append, List.length_singleton] at hanswers
    simp [CodeWriter.attempt, hanswers, hanswer, List.range'_succ, hfirst]

end

/-- A sink that takes `n` bytes holds the first `n` bytes of all lines that it has
been asked to take, also when the writer goes on after failures. The writer
counts the lines that fit; a write fails if and only if its line does not, and
then so do all later ones. A line may reach the sink in any pieces. -/
theorem attempt_limited (n : Nat) (flushFails : Bool) (code : List Instruction) :
    let (answers, last) := attempt code { sink := { capacity := some n, flushFails } }
    last.sink.bytes = (codeText code).toByteArray.extract 0 n ∧
      last.written = (List.range code.length).countP (Fits n code ·) ∧
      answers = (List.range code.length).map
        (fun k => if Fits n code k then .ok () else .error .full) ∧
      (∀ j k, j ≤ k → k < code.length → answers[j]? = some (.error .full) →
        answers[k]? = some (.error .full)) ∧
      ∀ i pieces, joined pieces = i.line.toByteArray → writePieces pieces = write i := by
  have hstart : Asked n [] { sink := { capacity := some n, flushFails } } :=
    ⟨rfl, (take_all (Nat.zero_le n)).symm, rfl⟩
  obtain ⟨hanswers, hlast⟩ := hstart.attempt code
  rw [List.nil_append, List.length_nil, ← List.range_eq_range'] at hanswers
  refine ⟨hlast.bytes, hlast.written, hanswers, fun j k hjk hk hj => ?_,
    fun i pieces h => writePieces_eq h⟩
  have hget (m : Nat) (hm : m < code.length) :
      ((List.range code.length).map fun k =>
          if Fits n code k then Except.ok () else .error SinkError.full)[m]? =
        some (if Fits n code m then .ok () else .error .full) := by
    simp [hm]
  rw [hanswers, hget] at hj ⊢
  · have hfails : ¬Fits n code j := fun hfits => by simp [hfits] at hj
    rw [if_neg (mt (Fits.mono hjk) hfails)]
  all_goals omega

end CodeWriter

end JackVM
