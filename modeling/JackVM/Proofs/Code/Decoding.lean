import JackVM.Proofs.Layout.Writing
import JackVM.Proofs.Runs.Rendering

/-!
# Reading code back

The words of an instruction are its mnemonic and its operands, with one space
between them. If no name in a list of instructions holds a space or a line
feed, its text, cut at line feeds and then at spaces, gives back the list. A
name may look like a mnemonic or a number: its place in the line tells what it is.
-/

namespace JackVM

-- ---------------------------------------------------------------------------
-- Cutting a text
-- ---------------------------------------------------------------------------

def pieces (separator : Char) (text : String) : List String :=
  (text.toList.splitOn separator).map String.ofList

theorem pieces_intercalate {separator : Char} {words : List String} (hne : words ≠ [])
    (h : ∀ w ∈ words, separator ∉ w.toList) :
    pieces separator ((String.singleton separator).intercalate words) = words := by
  have hs : ∀ w ∈ words.map String.toList, separator ∉ w := by simpa using h
  rw [pieces, String.toList_intercalate, String.toList_singleton,
    List.splitOn_intercalate _ hs (by simpa using hne), List.map_map]
  simp [Function.comp_def]

theorem not_mem_intercalate {c : Char} {separator : String} {words : List String}
    (hs : c ∉ separator.toList) (h : ∀ w ∈ words, c ∉ w.toList) :
    c ∉ (separator.intercalate words).toList := by
  induction words with
  | nil => simp
  | cons w words ih =>
    obtain ⟨hw, h⟩ := List.forall_mem_cons.mp h
    cases words with
    | nil => simpa using hw
    | cons next words =>
      simp only [String.intercalate_cons_cons, String.toList_append, List.mem_append, not_or]
      exact ⟨⟨hw, hs⟩, ih h⟩

-- ---------------------------------------------------------------------------
-- Words
-- ---------------------------------------------------------------------------

def numeral? (word : String) : Option Nat :=
  if word.toList ≠ [] ∧ word.toList.all Lexeme.isDigit then
    some (Lexeme.digitsValue word.toList)
  else none

theorem numeral?_toString (n : Nat) : numeral? (toString n) = some n := by
  have hd : (toString n).toList.all Lexeme.isDigit :=
    List.all_eq_true.mpr fun _ => isDigit_of_mem_toString
  have hv : Lexeme.digitsValue (toString n).toList = n := digitsValue_padded 0 n
  rw [numeral?, if_pos ⟨toString_ne_nil n, hd⟩, hv]

def Segment.all : List Segment :=
  [.constant, .argument, .locals, .static, .this, .that, .pointer, .temp]

def Segment.ofWord? (word : String) : Option Segment := all.find? (·.word == word)

theorem Segment.ofWord?_word (s : Segment) : ofWord? s.word = some s := by
  cases s <;> decide

def Operation.all : List Operation := [.add, .sub, .neg, .eq, .gt, .lt, .and, .or, .not]

def Operation.ofWord? (word : String) : Option Operation := all.find? (·.word == word)

theorem Operation.ofWord?_word (op : Operation) : ofWord? op.word = some op := by
  cases op <;> decide

def IsWord (text : String) : Prop := text ≠ "" ∧ ∀ c ∈ text.toList, Text.isBlank c = false

instance (text : String) : Decidable (IsWord text) :=
  decidable_of_iff (text ≠ "" ∧ text.toList.all (Text.isBlank · = false)) (by simp [IsWord])

theorem IsWord.not_mem {word : String} (h : IsWord word) {c : Char} (hc : Text.isBlank c) :
    c ∉ word.toList := by
  intro hm
  rw [h.2 c hm] at hc
  exact Bool.false_ne_true hc

theorem isWord_of_isNamePart {word : String} (hne : word.toList ≠ [])
    (h : ∀ c ∈ word.toList, isNamePart c) : IsWord word :=
  ⟨fun he => hne (by simp [he]), fun c hc => not_isBlank_of_isNamePart (h c hc)⟩

theorem isWord_toString (n : Nat) : IsWord (toString n) :=
  isWord_of_isNamePart (toString_ne_nil n) fun _ hc =>
    isNamePart_of_isDigit (isDigit_of_mem_toString hc)

theorem Segment.isWord_word (s : Segment) : IsWord s.word := by
  cases s <;> decide

theorem Operation.isWord_word (op : Operation) : IsWord op.word := by
  cases op <;> decide

-- ---------------------------------------------------------------------------
-- Instructions
-- ---------------------------------------------------------------------------

namespace Instruction

def name? : Instruction → Option String
  | .label name | .goto name | .ifGoto name | .call name _ | .function name _ => some name
  | _ => none

def WordNamed (i : Instruction) : Prop := ∀ name ∈ i.name?, IsWord name

def words : Instruction → List String
  | .push segment index => ["push", segment.word, toString index]
  | .pop segment index => ["pop", segment.word, toString index]
  | .operate operation => [operation.word]
  | .label name => ["label", name]
  | .goto name => ["goto", name]
  | .ifGoto name => ["if-goto", name]
  | .call callee arguments => ["call", callee, toString arguments]
  | .function name locals => ["function", name, toString locals]
  | .ret => ["return"]

theorem text_eq (i : Instruction) : i.text = " ".intercalate i.words := by
  cases i <;> simp [text, words, String.append_assoc]

def ofWords? : List String → Option Instruction
  | ["return"] => some .ret
  | [word] => (Operation.ofWord? word).map .operate
  | ["label", name] => some (.label name)
  | ["goto", name] => some (.goto name)
  | ["if-goto", name] => some (.ifGoto name)
  | ["push", segment, index] => return .push (← Segment.ofWord? segment) (← numeral? index)
  | ["pop", segment, index] => return .pop (← Segment.ofWord? segment) (← numeral? index)
  | ["call", callee, arguments] => (numeral? arguments).map (.call callee)
  | ["function", name, locals] => (numeral? locals).map (.function name)
  | _ => none

theorem ofWords?_words (i : Instruction) : ofWords? i.words = some i := by
  cases i with
  | operate op => cases op <;> decide
  | push segment index | pop segment index =>
    simp only [words, ofWords?, Segment.ofWord?_word, numeral?_toString]
    rfl
  | call name n | function name n =>
    simp only [words, ofWords?, numeral?_toString]
    rfl
  | _ => rfl

theorem words_ne_nil (i : Instruction) : i.words ≠ [] := by
  cases i <;> simp [words]

theorem isWord_words {i : Instruction} (h : i.WordNamed) : ∀ w ∈ i.words, IsWord w := by
  cases i with
  | push segment index | pop segment index =>
    simp only [words, List.forall_mem_cons]
    exact ⟨by decide, segment.isWord_word, isWord_toString index, List.forall_mem_nil _⟩
  | operate op => exact List.forall_mem_singleton.mpr op.isWord_word
  | label name | goto name | ifGoto name =>
    simp only [words, List.forall_mem_cons]
    exact ⟨by decide, h name rfl, List.forall_mem_nil _⟩
  | call name n | function name n =>
    simp only [words, List.forall_mem_cons]
    exact ⟨by decide, h name rfl, isWord_toString n, List.forall_mem_nil _⟩
  | ret => exact List.forall_mem_singleton.mpr (by decide)

def ofText? (text : String) : Option Instruction := ofWords? (pieces ' ' text)

theorem ofText?_text {i : Instruction} (h : i.WordNamed) : ofText? i.text = some i := by
  rw [ofText?, text_eq]
  refine Eq.trans (congrArg ofWords? ?_) (ofWords?_words i)
  exact pieces_intercalate i.words_ne_nil fun w hw => (isWord_words h w hw).not_mem (by decide)

theorem not_mem_text {i : Instruction} (h : i.WordNamed) : '\n' ∉ i.text.toList := by
  rw [text_eq]
  exact not_mem_intercalate (by decide) fun w hw => (isWord_words h w hw).not_mem (by decide)

end Instruction

-- ---------------------------------------------------------------------------
-- Code
-- ---------------------------------------------------------------------------

theorem codeText_intercalate (code : List Instruction) :
    codeText code = "\n".intercalate (code.map Instruction.text ++ [""]) := by
  induction code with
  | nil => rfl
  | cons i code ih =>
    rw [← List.singleton_append, codeText_append, codeText_singleton, ih, List.map_append,
      List.append_assoc, List.map_singleton, List.singleton_append,
      String.intercalate_cons_of_ne_nil (by simp), Instruction.line]

def decode? (text : String) : Option (List Instruction) :=
  let lines := pieces '\n' text
  if lines.getLast? = some "" then lines.dropLast.mapM Instruction.ofText? else none

theorem decode?_codeText {code : List Instruction} (h : ∀ i ∈ code, i.WordNamed) :
    decode? (codeText code) = some code := by
  have hlines : pieces '\n' (codeText code) = code.map Instruction.text ++ [""] := by
    rw [codeText_intercalate]
    refine pieces_intercalate (by simp) ?_
    simp only [List.forall_mem_append, List.forall_mem_map, List.forall_mem_singleton]
    exact ⟨fun i hi => Instruction.not_mem_text (h i hi), by decide⟩
  have hcode : (code.map Instruction.text).mapM Instruction.ofText? = some code := by
    clear hlines
    induction code with
    | nil => rfl
    | cons i code ih =>
      obtain ⟨hi, h⟩ := List.forall_mem_cons.mp h
      simp [List.mapM_cons, Instruction.ofText?_text hi, ih h]
  simp [decode?, hlines, hcode]

theorem codeText_injective {code code' : List Instruction} (h : ∀ i ∈ code, i.WordNamed)
    (h' : ∀ i ∈ code', i.WordNamed) (ht : codeText code = codeText code') : code = code' := by
  rw [← Option.some_inj, ← decode?_codeText h, ht, decode?_codeText h']

end JackVM
