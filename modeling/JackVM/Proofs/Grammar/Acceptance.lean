import JackVM.Compile.Basic
import JackVM.Proofs.Grammar.ClassComplete
import JackVM.Proofs.Grammar.ClassSound
import JackVM.Proofs.Syntax.Unambiguous

/-!
# What compiles, and to what

A source compiles if and only if its tokens spell a class that meets the static
conditions, and the code is then the code of that class. Compiling in one pass
is therefore the same as reading a tree and generating code from it.
-/

namespace JackVM

open Compile Syntax TokenStream

/-- The source, without its comments, is made of the tokens of the class. -/
def Spells (source : String) (c : JackClass) : Prop :=
  ∃ (text : List Char) (tokens : List Token), Comment.blankAll source.toList = .ok text ∧
    Lexeme.all text = tokens.map .token ∧ tokens.map Token.kind = c.tokens

variable {options : Options} {source : String} {c : JackClass}

theorem Spells.unique {d : JackClass} (h : Spells source c) (h' : Spells source d) : c = d := by
  obtain ⟨text, tokens, hb, hl, hk⟩ := h
  obtain ⟨text', tokens', hb', hl', hk'⟩ := h'
  obtain rfl := Except.ok.inj (hb.symm.trans hb')
  have htokens : tokens = tokens' :=
    List.map_injective_iff.mpr (fun _ _ => Lexeme.token.inj) (hl.symm.trans hl')
  exact JackClass.tokens_injective (by rw [← hk, ← hk', htokens])

theorem flush_run (s : CompileState Listing) :
    onSink InstructionSink.flush s = .ok () s := rfl

theorem lexemes_ok {found : List Lexeme} :
    lexemes source = .ok found ↔
      ∃ text, Comment.blankAll source.toList = .ok text ∧ found = Lexeme.all text := by
  unfold lexemes uncommented
  cases Comment.blankAll source.toList with
  | ok text => simp [Except.map, eq_comm]
  | error opener => simp [Except.map]

theorem compile_ok {code : List Instruction} (h : compile options source = .ok code) :
    ∃ c : JackClass, Spells source c ∧ c.Valid ∧ code = c.code options := by
  unfold compile compileInto at h
  cases hl : lexemes source with
  | error e => simp [hl] at h
  | ok found =>
    obtain ⟨text, hb, rfl⟩ := lexemes_ok.mp hl
    simp only [hl, EStateM.run] at h
    cases hu : compileUnit (Lexeme.all text).length
        ⟨⟨Lexeme.all text, source.utf8ByteSize⟩, { options }, (#[] : Listing)⟩ with
    | error e s => simp [hu] at h
    | ok u s =>
      simp only [hu] at h
      cases h
      obtain ⟨_, m, hc, hf⟩ := bind_ok.mp hu
      cases (flush_run m).symm.trans hf
      obtain ⟨c, ⟨stop, hr⟩, hv, ho⟩ := classDeclaration_ok hc
      obtain ⟨tokens, ht, hk⟩ := hr.to_end
      exact ⟨c, ⟨text, tokens, hb, ht, hk⟩, hv, by simp [ho]⟩

theorem compile_run (hs : Spells source c) (hv : c.Valid) :
    compile options source = .ok (c.code options) := by
  obtain ⟨text, tokens, hb, hl, hk⟩ := hs
  have hr := reads_all tokens source.utf8ByteSize
  rw [hk] at hr
  have hlen : c.tokens.length ≤ (tokens.map Lexeme.token).length := by simp [← hk]
  obtain ⟨s', hc, ho⟩ := classDeclaration_run options #[] hr hv hlen
  have hu : compileUnit (tokens.map Lexeme.token).length _ = .ok () s' :=
    bind_to hc (flush_run s')
  unfold compile compileInto
  rw [lexemes_ok.mpr ⟨text, hb, rfl⟩, hl]
  simp only [EStateM.run, hu, ho]
  simp

theorem Spells.compile_iff (hs : Spells source c) {code : List Instruction} :
    compile options source = .ok code ↔ c.Valid ∧ c.code options = code := by
  constructor
  · intro h
    obtain ⟨d, hd, hv, rfl⟩ := compile_ok h
    obtain rfl := hs.unique hd
    exact ⟨hv, rfl⟩
  · rintro ⟨hv, rfl⟩
    exact compile_run hs hv

theorem codeText_eq (code : List Instruction) :
    codeText code = String.join (code.map Instruction.line) := by
  simp [codeText, String.join, List.foldl_map]

/-- A source compiles if and only if no comment is left open, its lexemes are
tokens, and the tokens spell a class that meets the static conditions. -/
theorem compileText_ok_iff (options : Options) (source : String) :
    (∃ out, compileText options source = .ok out) ↔
      ∃ (text : List Char) (tokens : List Token) (c : JackClass),
        Comment.blankAll source.toList = .ok text ∧ Lexeme.all text = tokens.map .token ∧
        tokens.map Token.kind = c.tokens ∧ c.Valid := by
  constructor
  · rintro ⟨out, h⟩
    unfold compileText at h
    cases hc : compile options source with
    | error e => simp [hc, Except.map] at h
    | ok code =>
      obtain ⟨c, ⟨text, tokens, hb, hl, hk⟩, hv, -⟩ := compile_ok hc
      exact ⟨text, tokens, c, hb, hl, hk, hv⟩
  · rintro ⟨text, tokens, c, hb, hl, hk, hv⟩
    refine ⟨codeText (c.code options), ?_⟩
    rw [compileText, compile_run ⟨text, tokens, hb, hl, hk⟩ hv]
    rfl

/-- One pass over the tokens of a class writes what the code generator makes of
its tree. -/
theorem compileText_eq_code (options : Options) {source : String} {c : JackClass}
    (hs : Spells source c) (hv : c.Valid) :
    compileText options source =
      .ok (String.join ((c.code options).map Instruction.line)) := by
  rw [compileText, compile_run hs hv, ← codeText_eq]
  rfl

def gaugeSource : String :=
  "class Gauge { field int n; /* units */ method int rise() { if (n) { let n = n + 2 * n; } return n; } }"

def gauge : JackClass where
  name := "Gauge"
  vars := [⟨.field, .int, "n", []⟩]
  subroutines := [{
    kind := .method
    returnType := some .int
    name := "rise"
    parameters := []
    locals := []
    body := [
      .ifThen (.operand (.term (.variable "n")))
        [.assign "n" (.sum (.operand (.term (.variable "n"))) plus
          (.product (.term (.integer 2)) times (.variable "n")))],
      .leave (some (.operand (.term (.variable "n"))))] }]

def token? : Lexeme → Option Token
  | .token t => some t
  | .malformed _ _ => none

theorem spells_gauge : Spells gaugeSource gauge := by
  let text := "class Gauge { field int n;             method int rise() { if (n) { let n = n + 2 * n; } return n; } }"
  refine ⟨text.toList, (Lexeme.all text.toList).filterMap token?, ?_, ?_, ?_⟩
  -- The characters are named first: to find them by computation takes long.
  · rw [gaugeSource, String.toList_ofList, String.toList_ofList]
    rfl
  · rw [String.toList_ofList]
    decide +kernel
  · rw [String.toList_ofList]
    decide +kernel

theorem valid_gauge : gauge.Valid where
  fits := by intro kind; cases kind <;> decide
  subroutines := by
    intro s hs
    obtain rfl := List.mem_singleton.mp hs
    refine ⟨by intro kind; cases kind <;> decide, ?_⟩
    have hn : gauge.Declares (gauge.subroutines.head (by decide)) "n" := .inr (by decide)
    exact ⟨⟨hn, ⟨hn, hn, trivial, hn⟩, trivial⟩, hn, trivial⟩

theorem lines_gauge : (gauge.code {}).map Instruction.line = [
    "function Gauge.rise 0\n", "push argument 0\n", "pop pointer 0\n",
    "push this 0\n", "not\n", "if-goto L0\n",
    "push this 0\n", "push constant 2\n", "push this 0\n", "call Math.multiply 2\n", "add\n",
    "pop this 0\n", "goto L1\n", "label L0\n", "label L1\n", "push this 0\n", "return\n"] := by
  decide

theorem compileText_gauge : Spells gaugeSource gauge ∧ gauge.Valid ∧
    compileText {} gaugeSource = .ok (String.join [
      "function Gauge.rise 0\n", "push argument 0\n", "pop pointer 0\n",
      "push this 0\n", "not\n", "if-goto L0\n",
      "push this 0\n", "push constant 2\n", "push this 0\n", "call Math.multiply 2\n", "add\n",
      "pop this 0\n", "goto L1\n", "label L0\n", "label L1\n", "push this 0\n", "return\n"]) := by
  refine ⟨spells_gauge, valid_gauge, ?_⟩
  rw [compileText_eq_code {} spells_gauge valid_gauge, lines_gauge]

end JackVM
