import JackVM.Text.Comment

/-!
# What each character is taken for

Blanking goes through a source character by character and takes each one for
code, for a part of a string constant or for a part of a comment. `partsFrom`
tells which; blanking then replaces the comments and nothing else.
-/

namespace JackVM.Comment

inductive Part
  | code
  /-- The quotes at both ends included. -/
  | string
  /-- The marks at both ends included. -/
  | comment
  deriving DecidableEq, Repr

/-- The characters of a text that starts in `region` at byte `offset`, each with
what it is taken for, or the offset of the block comment that is never closed. -/
def partsFrom (region : Region) (offset : Nat) (text : List Char) :
    Except Nat (List (Part × Char)) :=
  match region, text with
  | .block opener, [] => .error opener
  | _, [] => .ok []
  | .code, '/' :: '/' :: cs =>
    (partsFrom .line (offset + 2) cs).map ([(.comment, '/'), (.comment, '/')] ++ ·)
  | .code, '/' :: '*' :: cs =>
    (partsFrom (.block offset) (offset + 2) cs).map ([(.comment, '/'), (.comment, '*')] ++ ·)
  | .code, c :: cs =>
    (partsFrom (if c = '"' then .string else .code) (offset + c.utf8Size) cs).map
      ([(if c = '"' then .string else .code, c)] ++ ·)
  | .string, c :: cs =>
    (partsFrom (if c = '"' ∨ c = '\n' then .code else .string) (offset + c.utf8Size) cs).map
      ([(.string, c)] ++ ·)
  | .line, c :: cs =>
    (partsFrom (if c = '\n' then .code else .line) (offset + c.utf8Size) cs).map
      ([(.comment, c)] ++ ·)
  | .block _, '*' :: '/' :: cs =>
    (partsFrom .code (offset + 2) cs).map ([(.comment, '*'), (.comment, '/')] ++ ·)
  | .block opener, c :: cs =>
    (partsFrom (.block opener) (offset + c.utf8Size) cs).map ([(.comment, c)] ++ ·)

def parts (source : List Char) : Except Nat (List (Part × Char)) := partsFrom .code 0 source

def shown : Part × Char → List Char
  | (.comment, c) => blank c
  | (_, c) => [c]

theorem reverse_blank (c : Char) : (blank c).reverse = blank c := by
  unfold blank
  split <;> simp

theorem show_first {x : Except Nat (List (Part × Char))} {ps : List (Part × Char)}
    {out out' : List Char} (h : out'.reverse = out.reverse ++ ps.flatMap shown) :
    x.map (fun qs => out'.reverse ++ qs.flatMap shown) =
      (x.map (ps ++ ·)).map fun qs => out.reverse ++ qs.flatMap shown := by
  cases x <;> simp [Except.map, h]

/-- The marks of comments are as long as the spaces put in their place. -/
theorem show_marks (out : List Char) {a b : Char} (h : a ∈ ['/', '*']) (h' : b ∈ ['/', '*']) :
    (' ' :: ' ' :: out).reverse =
      out.reverse ++ [(Part.comment, a), (.comment, b)].flatMap shown := by
  have hs : [(Part.comment, a), (.comment, b)].flatMap shown = [' ', ' '] := by
    simp only [List.mem_cons, List.not_mem_nil, or_false] at h h'
    rcases h with rfl | rfl <;> rcases h' with rfl | rfl <;> rfl
  rw [hs]
  simp

/-- Blanking shows the parts of a text one after another. -/
theorem blankFrom_eq (region : Region) (offset : Nat) (out text : List Char) :
    blankFrom region offset out text =
      (partsFrom region offset text).map fun ps => out.reverse ++ ps.flatMap shown := by
  fun_induction blankFrom region offset out text with
  | case1 => rfl
  | case2 region offset out h =>
    rw [partsFrom.eq_2 _ _ h]
    simp [Except.map]
  | case3 offset out cs ih =>
    rw [ih, partsFrom]
    exact show_first (show_marks out (by simp) (by simp))
  | case4 offset out cs ih =>
    rw [ih, partsFrom]
    exact show_first (show_marks out (by simp) (by simp))
  | case5 offset out c cs hl hb ih =>
    rw [ih, partsFrom]
    · refine show_first ?_
      split <;> simp [shown]
    · exact hl
    · exact hb
  | case6 offset out c cs ih =>
    rw [ih, partsFrom]
    exact show_first (by simp [shown])
  | case7 offset out c cs ih =>
    rw [ih, partsFrom]
    exact show_first (by simp [shown, reverse_blank])
  | case8 offset out opener cs ih =>
    rw [ih, partsFrom]
    exact show_first (show_marks out (by simp) (by simp))
  | case9 offset out opener c cs h ih =>
    rw [ih, partsFrom]
    · exact show_first (by simp [shown, reverse_blank])
    · exact h

theorem prepend_ok {x : Except Nat (List (Part × Char))} {first all : List (Part × Char)} :
    x.map (first ++ ·) = .ok all ↔ ∃ rest, x = .ok rest ∧ all = first ++ rest := by
  cases x <;> simp [Except.map, eq_comm]

theorem map_snd_partsFrom {region : Region} {offset : Nat} {text : List Char}
    {ps : List (Part × Char)} (h : partsFrom region offset text = .ok ps) :
    ps.map Prod.snd = text := by
  fun_induction partsFrom region offset text generalizing ps with
  | case1 => cases h
  | case2 => cases h; rfl
  | _ =>
    rename_i ih
    obtain ⟨rest, hr, rfl⟩ := prepend_ok.mp h
    simp [ih hr]

end JackVM.Comment
