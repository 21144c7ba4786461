import JackVM.Token.Cursor

/-!
# Reading lexemes one by one

The lexemes of a text are those of its first part followed by those of the rest.
A cursor that is asked for as long as more follows hands out the same ones.
-/

namespace JackVM

namespace Lexeme

section
variable {offset : Nat} {c : Char} {cs rest : List Char} {done : List Lexeme}

theorem allFrom_of_nil (h : cs.dropWhile Text.isBlank = []) :
    allFrom offset cs done = done.reverse := by
  rw [allFrom]
  split
  · rfl
  · next h' => cases h.symm.trans h'

theorem allFrom_of_cons (h : cs.dropWhile Text.isBlank = c :: rest) :
    allFrom offset cs done =
      let found := next (offset + Text.byteLength (cs.takeWhile Text.isBlank)) c rest
      allFrom found.1.span.stop found.2 (found.1 :: done) := by
  rw [allFrom]
  split
  · next h' => cases h.symm.trans h'
  · next h' => cases h.symm.trans h'; rfl

theorem length_rest_lt (h : cs.dropWhile Text.isBlank = c :: rest) (start : Nat) :
    (next start c rest).2.length < cs.length := by
  have hd := length_dropWhile_le Text.isBlank cs
  have hn := length_next_le start c rest
  rw [h, List.length_cons] at hd
  omega

end

/-- What has been read before does not change what is read next. -/
theorem allFrom_eq (offset : Nat) (cs : List Char) (done : List Lexeme) :
    allFrom offset cs done = done.reverse ++ allFrom offset cs [] := by
  cases h : cs.dropWhile Text.isBlank with
  | nil => rw [allFrom_of_nil h, allFrom_of_nil h, List.reverse_nil, List.append_nil]
  | cons c rest =>
    rw [allFrom_of_cons h, allFrom_of_cons h]
    dsimp only
    rw [allFrom_eq _ _ (_ :: done), allFrom_eq _ _ [_]]
    simp
termination_by cs.length
decreasing_by all_goals exact length_rest_lt h _

theorem allFrom_nil (offset : Nat) : allFrom offset [] [] = [] := allFrom_of_nil rfl

theorem allFrom_blank {c : Char} (h : Text.isBlank c) (offset : Nat) (cs : List Char) :
    allFrom offset (c :: cs) [] = allFrom (offset + c.utf8Size) cs [] := by
  have hd : (c :: cs).dropWhile Text.isBlank = cs.dropWhile Text.isBlank :=
    List.dropWhile_cons_of_pos h
  cases hcs : cs.dropWhile Text.isBlank with
  | nil => rw [allFrom_of_nil (hd.trans hcs), allFrom_of_nil hcs]
  | cons d rest =>
    rw [allFrom_of_cons (hd.trans hcs), allFrom_of_cons hcs, List.takeWhile_cons_of_pos h,
      Text.byteLength_cons, Nat.add_assoc]

theorem allFrom_blanks {blanks : List Char} (h : ∀ c ∈ blanks, Text.isBlank c) (offset : Nat)
    (cs : List Char) :
    allFrom offset (blanks ++ cs) [] = allFrom (offset + Text.byteLength blanks) cs [] := by
  induction blanks generalizing offset with
  | nil => rfl
  | cons c blanks ih =>
    obtain ⟨hc, h⟩ := List.forall_mem_cons.mp h
    rw [List.cons_append, allFrom_blank hc, ih h, Text.byteLength_cons, Nat.add_assoc]

theorem allFrom_cons {c : Char} (h : Text.isBlank c = false) (offset : Nat) (cs : List Char) :
    allFrom offset (c :: cs) [] =
      (next offset c cs).1 :: allFrom (next offset c cs).1.span.stop (next offset c cs).2 [] := by
  have hc : ¬Text.isBlank c = true := by simp [h]
  rw [allFrom_of_cons (List.dropWhile_cons_of_neg hc), List.takeWhile_cons_of_neg hc, allFrom_eq]
  rfl

def result : Lexeme → Except (CompileError Nat) Token
  | .token t => .ok t
  | .malformed span reason => .error (.inSource span.start (.lexical reason))

end Lexeme

namespace Cursor

variable {c : Cursor} {first : Char} {others : List Char}

theorem not_isBlank_of_dropWhile {cs : List Char}
    (h : cs.dropWhile Text.isBlank = first :: others) : ¬Text.isBlank first = true := by
  have hd := List.head?_dropWhile_not Text.isBlank cs
  simpa [h] using hd

theorem skipBlank_skipBlank (c : Cursor) : c.skipBlank.skipBlank = c.skipBlank := by
  unfold skipBlank
  cases h : c.rest.dropWhile Text.isBlank with
  | nil => simp
  | cons first others =>
    have hb := not_isBlank_of_dropWhile h
    simp [List.takeWhile_cons_of_neg hb, List.dropWhile_cons_of_neg hb]

theorem next_more (h : c.rest.dropWhile Text.isBlank = first :: others) :
    c.more.2.next =
      let found := Lexeme.next (c.offset + Text.byteLength (c.rest.takeWhile Text.isBlank)) first
        others
      (found.1.result, ⟨c.source, found.1.span.stop, found.2⟩) := by
  show c.skipBlank.next = _
  unfold next
  rw [skipBlank_skipBlank]
  simp only [skipBlank, h]
  generalize Lexeme.next _ first others = found
  obtain ⟨_ | _, rest⟩ := found <;> rfl

theorem exists_of_more (h : c.more.1 = true) :
    ∃ first others, c.rest.dropWhile Text.isBlank = first :: others := by
  cases hd : c.rest.dropWhile Text.isBlank with
  | nil => simp [more, skipBlank, hd] at h
  | cons first others => exact ⟨first, others, rfl⟩

theorem length_next_lt (h : c.more.1 = true) : c.more.2.next.2.rest.length < c.rest.length := by
  obtain ⟨first, others, hd⟩ := exists_of_more h
  rw [next_more hd]
  exact Lexeme.length_rest_lt hd _

def drain (c : Cursor) : List (Except (CompileError Nat) Token) :=
  if _h : c.more.1 = true then c.more.2.next.1 :: drain c.more.2.next.2 else []
termination_by c.rest.length
decreasing_by exact length_next_lt _h

theorem drain_eq (c : Cursor) :
    c.drain = (Lexeme.allFrom c.offset c.rest []).map Lexeme.result := by
  fun_induction drain c with
  | case1 c h ih =>
    obtain ⟨first, others, hd⟩ := exists_of_more h
    rw [ih, next_more hd, Lexeme.allFrom_of_cons hd, Lexeme.allFrom_eq _ _ [_]]
    rfl
  | case2 c h =>
    have hd : c.rest.dropWhile Text.isBlank = [] := by simpa [more, skipBlank] using h
    rw [Lexeme.allFrom_of_nil hd]
    rfl

theorem drain_ofSource {source : String} {found : List Lexeme}
    (h : lexemes source = .ok found) :
    (ofSource source).map drain = .ok (found.map Lexeme.result) := by
  unfold lexemes at h
  unfold ofSource
  cases hu : uncommented source with
  | error e => simp [hu, Except.map] at h
  | ok text =>
    simp only [hu, Except.map, Except.ok.injEq] at h ⊢
    rw [drain_eq, ← h]
    rfl

end Cursor

end JackVM
