import JackVM.Proofs.Layout.Scanning

/-!
# Printing tokens and reading them back

Tokens can be printed in any of their ways, with any white space and comments
between them. A cursor on the printed text hands the same tokens out.
-/

namespace JackVM

open Lexeme Text

abbrev Gap := List Filler

namespace Gap

def text (gap : Gap) : List Char := gap.flatMap Filler.text

def Closed (gap : Gap) : Prop := ∀ f ∈ gap, f.Closed

instance (gap : Gap) : Decidable gap.Closed := by
  unfold Closed
  infer_instance

def StartsBlank (gap : Gap) : Prop := ∃ c others, gap = .blank c :: others

end Gap

/-- A token as it is printed, with what is printed after it. -/
structure Printed where
  kind : TokenKind
  text : List Char
  gap : Gap
  deriving DecidableEq, Repr

namespace Printed

/-- White space follows each token; after the last one there may be nothing. -/
def Legible : List Printed → Prop
  | [] => True
  | p :: ps =>
    Written p.kind p.text ∧ p.gap.Closed ∧ (p.gap.StartsBlank ∨ p.gap = [] ∧ ps = []) ∧ Legible ps

def bodyText (ps : List Printed) : List Char := ps.flatMap fun p => p.text ++ p.gap.text

/-- A source in which tokens are printed; `lead` comes before the first one. -/
def source (lead : Gap) (ps : List Printed) : String := String.ofList (lead.text ++ bodyText ps)

def tokens (offset : Nat) : List Printed → List Token
  | [] => []
  | p :: ps =>
    ⟨p.kind, ⟨offset, offset + byteLength p.text⟩⟩ ::
      tokens (offset + byteLength p.text + byteLength p.gap.text) ps

theorem map_kind_tokens (offset : Nat) (ps : List Printed) :
    (tokens offset ps).map (·.kind) = ps.map (·.kind) := by
  induction ps generalizing offset with
  | nil => rfl
  | cons p ps ih => simp [tokens, ih]

end Printed

section
variable {offset : Nat} {rest : List Char} {tokens : List Token} {gap : Gap} {kind : TokenKind}

theorem Gap.Closed.laid (h : Gap.Closed gap)
    (hr : Laid (offset + byteLength (Gap.text gap)) rest tokens) :
    Laid offset (Gap.text gap ++ rest) tokens := by
  induction gap generalizing offset with
  | nil => exact hr
  | cons f gap ih =>
    obtain ⟨hf, h⟩ := List.forall_mem_cons.mp h
    have ht : Gap.text (f :: gap) = f.text ++ Gap.text gap := List.flatMap_cons
    rw [ht, byteLength_append, ← Nat.add_assoc] at hr
    rw [ht, List.append_assoc]
    exact .filler hf (ih h hr)

theorem separated_nil : Separated kind [] := by
  cases kind <;> simp [Separated]

theorem separated_blank {c : Char} (h : isBlank c) : Separated kind (c :: rest) := by
  have hw : isWordPart c = false := by simp [isWordPart, h]
  have hs : c ≠ '/' ∧ c ≠ '*' := ⟨ne_of_class h (by decide), ne_of_class h (by decide)⟩
  cases kind <;> simp [Separated, hw, hs]

theorem Gap.Closed.separated (hc : Gap.Closed gap)
    (h : Gap.StartsBlank gap ∨ gap = [] ∧ rest = []) : Separated kind (Gap.text gap ++ rest) := by
  rcases h with ⟨c, others, rfl⟩ | ⟨rfl, rfl⟩
  · exact separated_blank (hc (.blank c) List.mem_cons_self)
  · exact separated_nil

end

namespace Printed

theorem Legible.laid {offset : Nat} {ps : List Printed} (h : Legible ps) :
    Laid offset (bodyText ps) (tokens offset ps) := by
  induction ps generalizing offset with
  | nil => exact .nil offset
  | cons p ps ih =>
    obtain ⟨hw, hc, hs, h⟩ := h
    have ht : bodyText (p :: ps) = p.text ++ (p.gap.text ++ bodyText ps) := by
      simp [bodyText]
    rw [ht]
    refine .token hw (hc.separated ?_) (hc.laid (ih h))
    refine hs.imp_right fun ⟨hg, hn⟩ => ⟨hg, ?_⟩
    rw [hn]
    rfl

theorem lexemes_source (lead : Gap) (ps : List Printed) (hl : lead.Closed) (hp : Legible ps) :
    lexemes (source lead ps) = .ok ((tokens (byteLength lead.text) ps).map .token) := by
  rw [lexemes_eq_ok_iff, source, String.toList_ofList]
  refine hl.laid ?_
  rw [Nat.zero_add]
  exact hp.laid

/-- A cursor on printed tokens hands them out, each from where it is printed. -/
theorem drain_source (lead : Gap) (ps : List Printed) (hl : lead.Closed) (hp : Legible ps) :
    (Cursor.ofSource (source lead ps)).map Cursor.drain =
        .ok ((tokens (byteLength lead.text) ps).map .ok) ∧
      (tokens (byteLength lead.text) ps).map (·.kind) = ps.map (·.kind) := by
  refine ⟨?_, map_kind_tokens _ ps⟩
  rw [Cursor.drain_ofSource (lexemes_source lead ps hl hp), List.map_map]
  rfl

def slashes : List Printed :=
  [⟨.identifier "a", ['a'], [.blank ' ', .line ['"']]⟩,
    ⟨.symbol '/', ['/'], [.blank ' ', .block ['*']]⟩,
    ⟨.integer 7, ['0', '0', '7'], [.blank '\u00a0']⟩,
    ⟨.string "/*é", ['"', '/', '*', 'é', '"'], []⟩]

theorem legible_slashes : Legible slashes := by
  have hn : Written (.identifier "a") ['a'] := .word (.identifier (by decide) (by decide))
  have hi : Written (.integer 7) ['0', '0', '7'] := .word (.integer 2 (by decide))
  have hs : Written (.string "/*é") ['"', '/', '*', 'é', '"'] := .string (by simp)
  exact ⟨hn, by decide, .inl ⟨_, _, rfl⟩, .symbol (by decide), by decide, .inl ⟨_, _, rfl⟩,
    hi, by decide, .inl ⟨_, _, rfl⟩, hs, by decide, .inr ⟨rfl, rfl⟩, trivial⟩

theorem drain_source_slashes :
    (Gap.Closed [.block ['"', 'é', '*']] ∧ Legible slashes) ∧
      source [.block ['"', 'é', '*']] slashes = "/*\"é**/a //\"\n/ /***/007\u00a0\"/*é\"" ∧
      (Cursor.ofSource "/*\"é**/a //\"\n/ /***/007\u00a0\"/*é\"").map Cursor.drain =
        .ok [.ok ⟨.identifier "a", ⟨8, 9⟩⟩, .ok ⟨.symbol '/', ⟨14, 15⟩⟩,
          .ok ⟨.integer 7, ⟨21, 24⟩⟩, .ok ⟨.string "/*é", ⟨26, 32⟩⟩] := by
  have hl : Gap.Closed [.block ['"', 'é', '*']] := by decide
  exact ⟨⟨hl, legible_slashes⟩, rfl, (drain_source _ _ hl legible_slashes).1⟩

end Printed

end JackVM
