/-!
# Positions in a text

Places in a source are byte offsets of its UTF-8 form. A position is what a
reader is told instead: lines are counted by line feeds, columns in
characters, both from 1.
-/

namespace JackVM

structure Position where
  line : Nat
  column : Nat
  deriving DecidableEq, Repr

namespace Text

def byteLength (cs : List Char) : Nat := cs.foldr (fun c n => c.utf8Size + n) 0

@[simp] theorem byteLength_nil : byteLength [] = 0 := rfl

@[simp] theorem byteLength_cons (c : Char) (cs : List Char) :
    byteLength (c :: cs) = c.utf8Size + byteLength cs := rfl

@[simp] theorem byteLength_append (cs ds : List Char) :
    byteLength (cs ++ ds) = byteLength cs + byteLength ds := by
  induction cs with
  | nil => simp
  | cons c cs ih => simp [ih, Nat.add_assoc]

@[simp] theorem byteLength_replicate (n : Nat) (c : Char) :
    byteLength (List.replicate n c) = n * c.utf8Size := by
  induction n with
  | zero => simp
  | succ n ih => simp [List.replicate_succ, ih, Nat.succ_mul, Nat.add_comm]

theorem byteLength_eq_zero {cs : List Char} : byteLength cs = 0 ↔ cs = [] := by
  cases cs with
  | nil => simp
  | cons c cs =>
    have hc := c.utf8Size_pos
    simp
    omega

theorem size_utf8Encode (cs : List Char) : cs.utf8Encode.size = byteLength cs := by
  induction cs with
  | nil => rfl
  | cons c cs ih =>
    rw [List.utf8Encode_cons, ByteArray.size_append, ih, List.utf8Encode_singleton]
    simp

theorem byteLength_toList (s : String) : byteLength s.toList = s.utf8ByteSize := by
  rw [← size_utf8Encode, String.utf8Encode_toList, String.size_toByteArray]

def reverseBefore (offset : Nat) (cs : List Char) : List Char := go offset cs []
where
  go : Nat → List Char → List Char → List Char
    | _, [], acc => acc
    | room, c :: cs, acc =>
      if c.utf8Size ≤ room then go (room - c.utf8Size) cs (c :: acc) else acc

end Text

namespace Position

/-- Where byte `offset` lies; an offset past the end counts as the end. -/
def ofOffset (source : String) (offset : Nat) : Position :=
  let before := Text.reverseBefore offset source.toList
  { line := before.count '\n' + 1
    column := (before.takeWhile (· ≠ '\n')).length + 1 }

def text (p : Position) : String := toString p.line ++ ":" ++ toString p.column

end Position

end JackVM
