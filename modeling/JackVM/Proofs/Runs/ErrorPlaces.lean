import JackVM.Proofs.Layout.Positions
import JackVM.Proofs.Layout.Regions
import JackVM.Proofs.Runs.Relocation

/-!
# Where errors are

Every error is told where a lexeme starts, where the block comment starts that is
never closed, or at the end of the source. These are places between characters of
the source: although offsets are counted in the text without comments, what a comment
is replaced by is as long as the comment.
-/

namespace JackVM

open Comment Compile Text

variable {ω : Type}

-- ---------------------------------------------------------------------------
-- Offsets that a compilation keeps
-- ---------------------------------------------------------------------------

def StartsAt (found : List Lexeme) (stop offset : Nat) : Prop :=
  offset = stop ∨ ∃ l ∈ found, offset = l.span.start

/-- A compilation beside itself, reading from these lexemes: whatever it says about
a place, the place is the start of one. -/
def placed (ω : Type) (found : List Lexeme) (stop : Nat) : Coupling ω ω where
  Tokens s t := s = t ∧ s.stop = stop ∧ s.lexemes ⊆ found
  Place a _ := StartsAt found stop a
  Numbering o n o' n' := o = o' ∧ n = n'
  Label := Eq
  Out := Eq
  Stopped _ _ _ := False
  Later _ _ := True

namespace Coupling

variable {found : List Lexeme} {stop : Nat}

theorem heads_placed {s t : TokenStream} (h : (placed ω found stop).Tokens s t) :
    (placed ω found stop).Heads s t := by
  obtain ⟨lexemes, stop⟩ := s
  obtain ⟨rfl, rfl, hl⟩ := h
  cases lexemes with
  | nil => exact .stop (.inl rfl)
  | cons l lexemes =>
    obtain ⟨hm, hrest⟩ := List.cons_subset.mp hl
    have hp : (placed ω found stop).Place l.span.start l.span.start := .inr ⟨l, hm, rfl⟩
    cases l with
    | token t => exact .token t.kind hp ⟨rfl, rfl, hrest⟩
    | malformed span reason => exact .malformed reason hp

instance [InstructionSink ω] : (placed ω found stop).Lawful where
  heads := heads_placed
  place_total _ := ⟨stop, .inl rfl⟩
  label_total b := ⟨b, rfl⟩
  draw := draw_same
  restart := restart_same
  write := by
    intro i j o o' h h'
    obtain rfl := h.eq
    obtain rfl : o = o' := h'
    exact writes_self (fun _ => rfl) _
  later_refl _ := trivial
  later_trans _ _ := trivial
  later_write _ _ := trivial
  stopped_later h _ := h

end Coupling

theorem onSink_error [InstructionSink ω] {s s' : CompileState ω} {offset : Nat} {cause : Cause}
    {x : EStateM SinkError ω Unit} (h : onSink x s = .error (.inSource offset cause) s') :
    False := by
  obtain ⟨tokens, context, out⟩ := s
  unfold onSink at h
  cases hx : x out <;> simp [hx] at h

theorem compileUnit_startsAt [InstructionSink ω] {found : List Lexeme} {stop bound : Nat}
    {context : Context} {out : ω} {s : CompileState ω} {offset : Nat} {cause : Cause}
    (h : compileUnit bound ⟨⟨found, stop⟩, context, out⟩ = .error (.inSource offset cause) s) :
    StartsAt found stop offset := by
  have hr := (Coupling.matches_classDeclaration (C := placed ω found stop) bound).ran
    ⟨⟨found, stop⟩, context, out⟩ ⟨⟨found, stop⟩, context, out⟩
    ⟨⟨rfl, rfl, List.Subset.refl _⟩, rfl, rfl, rfl, ⟨rfl, rfl⟩, rfl⟩
  rcases bind_error.mp h with hc | ⟨_, _, -, hf⟩
  · rw [hc] at hr
    cases hr with
    | error he _ =>
      cases he with
      | inSource cause hp => exact hp
    | stopped he => exact he.elim
  · exact (onSink_error hf).elim

-- ---------------------------------------------------------------------------
-- Places in a source
-- ---------------------------------------------------------------------------

/-- What starts at a place where errors are told. -/
inductive ErrorPlace (source : String) : Nat → Prop
  | lexeme {found : List Lexeme} {l : Lexeme} (h : lexemes source = .ok found) (hl : l ∈ found) :
    ErrorPlace source l.span.start
  /-- A block comment that is never closed. -/
  | comment {before body : List Char} (h : source.toList = before ++ '/' :: '*' :: body)
    (hb : ¬['*', '/'] <:+: body)
    (he : uncommented source = .error (.inSource (byteLength before) (.lexical .openComment))) :
    ErrorPlace source (byteLength before)
  | stop : ErrorPlace source source.utf8ByteSize

theorem Comments.exists_opener {offset start : Nat} {text : List Char} {comments : List Span}
    (h : Comments offset text comments (some start)) :
    ∃ before body, text = before ++ '/' :: '*' :: body ∧ start = offset + byteLength before ∧
      ¬['*', '/'] <:+: body := by
  generalize ho : some start = opener at h
  induction h with
  | nil | openString | lastLine => cases ho
  | @code offset c rest _ _ _ _ _ ih =>
    obtain ⟨before, body, rfl, rfl, hb⟩ := ih ho
    exact ⟨c :: before, body, rfl, Nat.add_assoc .., hb⟩
  | @string offset body last rest _ _ _ _ _ ih =>
    obtain ⟨before, inner, rfl, rfl, hb⟩ := ih ho
    exact ⟨'"' :: (body ++ [last]) ++ before, inner, by simp, by simp [Nat.add_assoc], hb⟩
  | @line offset body rest _ _ _ _ ih =>
    obtain ⟨before, inner, rfl, rfl, hb⟩ := ih ho
    exact ⟨'/' :: '/' :: (body ++ ['\n']) ++ before, inner, by simp, by simp [Nat.add_assoc], hb⟩
  | @block offset body rest _ _ _ _ ih =>
    obtain ⟨before, inner, rfl, rfl, hb⟩ := ih ho
    exact ⟨'/' :: '*' :: (body ++ ['*', '/']) ++ before, inner, by simp,
      by simp [Nat.add_assoc], hb⟩
  | @openBlock offset body hb =>
    cases ho
    exact ⟨[], body, rfl, rfl, hb⟩

theorem errorPlace_of_uncommented {source : String} {offset : Nat} {cause : Cause}
    (h : uncommented source = .error (.inSource offset cause)) : ErrorPlace source offset := by
  obtain ⟨comments, opener, hc⟩ := exists_comments 0 source.toList
  cases opener with
  | none =>
    obtain ⟨text, ht, -⟩ := hc.blankedSource
    cases h.symm.trans ht
  | some start =>
    have he : uncommented source = .error (.inSource start (.lexical .openComment)) := by
      rw [uncommented_eq, hc.error]
    obtain ⟨before, body, ht, rfl, hb⟩ := hc.exists_opener
    rw [Nat.zero_add] at he
    cases h.symm.trans he
    exact .comment ht hb he

theorem ErrorPlace.boundary {source : String} {offset : Nat} (h : ErrorPlace source offset) :
    Boundary source.toList offset := by
  cases h with
  | @lexeme found l h hl =>
    unfold lexemes at h
    rw [uncommented_eq] at h
    cases hp : partsFrom .code 0 source.toList with
    | error opener =>
      rw [hp] at h
      cases h
    | ok ps =>
      rw [hp] at h
      cases h
      rw [← map_snd_partsFrom hp]
      exact ((lexed_allFrom 0 _).boundary hl _ (List.mem_cons_self)).1
  | comment h => exact ⟨_, _, h, rfl⟩
  | stop => exact ⟨source.toList, [], by simp, byteLength_toList source⟩

-- ---------------------------------------------------------------------------
-- The whole compilation
-- ---------------------------------------------------------------------------

/-- How a compilation ended and what has become of its sink; where it failed is the
byte offset that it asks the position of. -/
def compileAt [InstructionSink ω] (out : ω) (options : Options) (source : String) :
    Except (CompileError Nat) Unit × ω :=
  match lexemes source with
  | .error e => (.error e, out)
  | .ok found =>
    match compileUnit found.length ⟨⟨found, source.utf8ByteSize⟩, { options }, out⟩ with
    | .ok _ s => (.ok (), s.out)
    | .error e s => (.error e, s.out)

theorem compileInto_eq_compileAt [InstructionSink ω] (out : ω) (options : Options)
    (source : String) : compileInto out options source =
      ((compileAt out options source).1.mapError (CompileError.locate source),
        (compileAt out options source).2) := by
  unfold compileInto compileAt EStateM.run
  cases lexemes source with
  | error e => rfl
  | ok found =>
    dsimp only
    generalize compileUnit (ω := ω) found.length _ = r
    cases r <;> rfl

theorem errorPlace_of_compileAt [InstructionSink ω] {out : ω} {options : Options}
    {source : String} {offset : Nat} {cause : Cause}
    (h : (compileAt out options source).1 = .error (.inSource offset cause)) :
    ErrorPlace source offset := by
  unfold compileAt at h
  cases hl : lexemes source with
  | error e =>
    rw [hl] at h
    obtain rfl := Except.error.inj h
    unfold lexemes at hl
    cases hu : uncommented source with
    | error e =>
      rw [hu] at hl
      obtain rfl := Except.error.inj hl
      exact errorPlace_of_uncommented hu
    | ok text =>
      rw [hu] at hl
      cases hl
  | ok found =>
    simp only [hl] at h
    split at h
    · cases h
    · next hu =>
      cases h
      rcases compileUnit_startsAt hu with rfl | ⟨l, hm, rfl⟩
      · exact .stop
      · exact .lexeme hl hm

/-- An error has a position, which is that of a lexeme, of a comment left open or of
the end of the source. No place inside a character is ever asked for. -/
theorem compileInto_places [InstructionSink ω] (out : ω) (options : Options) (source : String) :
    (compileInto out options source).1 =
        (compileAt out options source).1.mapError (CompileError.locate source) ∧
      ∀ offset cause, (compileAt out options source).1 = .error (.inSource offset cause) →
        ErrorPlace source offset ∧ Boundary source.toList offset ∧
        ∃ p, Position.at? source offset = some p ∧ p.InText source ∧
          (compileInto out options source).1 = .error (.inSource p cause) := by
  rw [compileInto_eq_compileAt]
  refine ⟨rfl, fun offset cause h => ?_⟩
  have hplace := errorPlace_of_compileAt h
  have hle := hplace.boundary.le
  rw [byteLength_toList] at hle
  have hat : Position.at? source offset = some (.ofOffset source offset) :=
    Position.at?_eq_some.mpr ⟨by rw [Nat.min_eq_left hle]; exact hplace.boundary, rfl⟩
  exact ⟨hplace, hplace.boundary, _, hat, Position.inText_of_at? hat, by rw [h]; rfl⟩

def accentedSource : String := "/*é*/class 7"

theorem compileInto_places_accented :
    (compileAt (#[] : Listing) {} accentedSource).1 =
      .error (.inSource 12 (.unexpected .className (some (.integer 7)))) ∧
    ErrorPlace accentedSource 12 ∧ Position.at? accentedSource 12 = some ⟨1, 12⟩ ∧
    Position.at? accentedSource 3 = none := by
  have hrun : (compileAt (#[] : Listing) {} accentedSource).1 =
      .error (.inSource 12 (.unexpected .className (some (.integer 7)))) := by
    decide +kernel
  obtain ⟨hplace, -, -⟩ := (compileInto_places (#[] : Listing) {} accentedSource).2 _ _ hrun
  exact ⟨hrun, hplace, by decide +kernel, by decide +kernel⟩

end JackVM
