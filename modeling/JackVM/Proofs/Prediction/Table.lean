import JackVM.Proofs.Grammar.MemberLaws

/-!
# What may come next

The class grammar as a table: a stack says what is still to be read, and the
next token alone tells what becomes of it. An item that starts with the token
is replaced by what then follows the token; one that does not is passed over if
it may be empty.

A stack knows whether a `return` needs a value, so the table accepts a bare
`return;` in void subroutines only.
-/

namespace JackVM.Prediction

open Compile (SubroutineKind variableKind?)

inductive Item
  | kind (kind : TokenKind)
  | name
  | type
  | classVariables
  | moreNames
  | subroutines
  /-- A subroutine after its first word. -/
  | signature
  | parameters
  | moreParameters
  | locals
  | statements (returnsVoid : Bool)
  | letTail
  | elseTail (returnsVoid : Bool)
  | returnTail (returnsVoid : Bool)
  | callTail
  | arguments
  | moreArguments
  | term
  | termTail
  /-- A term that is no call. -/
  | simpleTerm
  | index
  | factors
  | operands
  deriving DecidableEq, Repr

def symbol (c : Char) : Item := .kind (.symbol c)

def parens (items : List Item) : List Item := symbol '(' :: (items ++ [symbol ')'])

def braces (items : List Item) : List Item := symbol '{' :: (items ++ [symbol '}'])

def expressionItems : List Item := [.term, .factors, .operands]

def indexItems : List Item := expressionItems ++ [symbol ']']

def declaratorItems : List Item := [.type, .name, .moreNames, symbol ';']

def subroutineItems (returnsVoid : Bool) : List Item :=
  .name :: (parens [.parameters] ++ braces [.locals, .statements returnsVoid])

def classItems : List Item :=
  .kind (.keyword .classWord) :: .name :: braces [.classVariables, .subroutines]

def word? : TokenKind → Option Keyword
  | .keyword word => some word
  | _ => none

def char? : TokenKind → Option Char
  | .symbol c => some c
  | _ => none

def startsName : TokenKind → Bool
  | .identifier _ => true
  | _ => false

def startsType : TokenKind → Bool
  | .keyword .intWord | .keyword .charWord | .keyword .booleanWord | .identifier _ => true
  | _ => false

/-- What follows the first token of a term; `tail` may follow a name. -/
def termItems (tail : Item) : TokenKind → Option (List Item)
  | .integer _ | .string _ => some []
  | .keyword .trueWord | .keyword .falseWord | .keyword .nullWord | .keyword .thisWord => some []
  | .identifier _ => some [tail]
  | .symbol '(' => some (expressionItems ++ [symbol ')'])
  | .symbol '-' | .symbol '~' => some [.term]
  | _ => none

def statementItems (returnsVoid : Bool) : Keyword → Option (List Item)
  | .letWord => some [.name, .letTail]
  | .ifWord =>
    some (parens expressionItems ++ braces [.statements returnsVoid] ++ [.elseTail returnsVoid])
  | .whileWord => some (parens expressionItems ++ braces [.statements returnsVoid])
  | .doWord => some [.name, .callTail, symbol ';']
  | .returnWord => some [.returnTail returnsVoid]
  | _ => none

def callItems (t : TokenKind) : Option (List Item) :=
  if t = .symbol '(' then some [.arguments, symbol ')']
  else if t = .symbol '.' then some (.name :: parens [.arguments])
  else none

/-- What follows the token in an item that starts with it. -/
def Item.expand (item : Item) (t : TokenKind) : Option (List Item) :=
  match item with
  | .kind expected => if t = expected then some [] else none
  | .name => if startsName t then some [] else none
  | .type => if startsType t then some [] else none
  | .classVariables =>
    ((word? t).bind variableKind?).map fun _ => declaratorItems ++ [.classVariables]
  | .moreNames => if t = .symbol ',' then some [.name, .moreNames] else none
  | .subroutines =>
    ((word? t).bind SubroutineKind.ofKeyword?).map fun _ => [.signature, .subroutines]
  | .signature =>
    if t = .keyword .voidWord then some (subroutineItems true)
    else if startsType t then some (subroutineItems false)
    else none
  | .parameters => if startsType t then some [.name, .moreParameters] else none
  | .moreParameters => if t = .symbol ',' then some [.type, .name, .moreParameters] else none
  | .locals => if t = .keyword .varWord then some (declaratorItems ++ [.locals]) else none
  | .statements returnsVoid =>
    ((word? t).bind (statementItems returnsVoid)).map (· ++ [.statements returnsVoid])
  | .letTail =>
    if t = .symbol '=' then some (expressionItems ++ [symbol ';'])
    else if t = .symbol '[' then
      some (indexItems ++ symbol '=' :: (expressionItems ++ [symbol ';']))
    else none
  | .elseTail returnsVoid =>
    if t = .keyword .elseWord then some (braces [.statements returnsVoid]) else none
  | .returnTail returnsVoid =>
    if t = .symbol ';' then if returnsVoid then some [] else none
    else (termItems .termTail t).map (· ++ [.factors, .operands, symbol ';'])
  | .callTail => callItems t
  | .arguments => (termItems .termTail t).map (· ++ [.factors, .operands, .moreArguments])
  | .moreArguments =>
    if t = .symbol ',' then some (expressionItems ++ [.moreArguments]) else none
  | .term => termItems .termTail t
  | .termTail => if t = .symbol '[' then some indexItems else callItems t
  | .simpleTerm => termItems .index t
  | .index => if t = .symbol '[' then some indexItems else none
  | .factors => ((char? t).bind (BinaryOperator.ofSymbol? .product)).map fun _ => [.term, .factors]
  | .operands =>
    ((char? t).bind (BinaryOperator.ofSymbol? .sum)).map fun _ => [.term, .factors, .operands]

def Item.nullable : Item → Bool
  | .classVariables | .moreNames | .subroutines | .parameters | .moreParameters | .locals
  | .statements _ | .elseTail _ | .arguments | .moreArguments | .termTail | .index | .factors
  | .operands => true
  | _ => false

def advance : List Item → TokenKind → Option (List Item)
  | [], _ => none
  | item :: stack, t =>
    match item.expand t with
    | some items => some (items ++ stack)
    | none => if item.nullable then advance stack t else none

def advanceAll (stack : List Item) : List TokenKind → Option (List Item)
  | [] => some stack
  | t :: ts => (advance stack t).bind fun stack => advanceAll stack ts

/-- The tokens from the first one on that cannot come next, no tokens if more
are expected at the end, or `none` if all is as expected. -/
def misfit (stack : List Item) : List TokenKind → Option (List TokenKind)
  | [] => if stack.all Item.nullable then none else some []
  | t :: ts =>
    match advance stack t with
    | some stack => misfit stack ts
    | none => some (t :: ts)

variable {item : Item} {items stack after : List Item} {t : TokenKind} {ts : List TokenKind}

theorem advance_expand (h : item.expand t = some items) :
    advance (item :: stack) t = some (items ++ stack) := by
  simp [advance, h]

theorem advance_pass (h : item.expand t = none) (hn : item.nullable = true) :
    advance (item :: stack) t = advance stack t := by
  simp [advance, h, hn]

theorem advance_stuck (h : item.expand t = none) (hn : item.nullable = false) :
    advance (item :: stack) t = none := by
  simp [advance, h, hn]

theorem misfit_expand (h : item.expand t = some items) :
    misfit (item :: stack) (t :: ts) = misfit (items ++ stack) ts := by
  rw [misfit, advance_expand h]

theorem misfit_stuck (h : item.expand t = none) (hn : item.nullable = false) :
    misfit (item :: stack) (t :: ts) = some (t :: ts) := by
  rw [misfit, advance_stuck h hn]

theorem misfit_end (hn : item.nullable = false) : misfit (item :: stack) [] = some [] := by
  simp [misfit, hn]

/-- An optional item that the next token does not start is passed over. -/
theorem misfit_pass (hn : item.nullable = true) (h : ∀ t ∈ ts.head?, item.expand t = none) :
    misfit (item :: stack) ts = misfit stack ts := by
  cases ts with
  | nil => simp [misfit, hn]
  | cons t ts => rw [misfit, misfit, advance_pass (h t rfl) hn]

/-- Stacks that the next token takes to the same place fit the same tokens. -/
theorem misfit_congr (h : advance stack t = advance after t) :
    misfit stack (t :: ts) = misfit after (t :: ts) := by
  rw [misfit, misfit, h]

theorem misfit_suffix {rest : List TokenKind} (h : misfit stack ts = some rest) : rest <:+ ts := by
  induction ts generalizing stack with
  | nil =>
    rw [misfit] at h
    split at h <;> cases h
    exact List.suffix_rfl
  | cons t ts ih =>
    rw [misfit] at h
    split at h
    · exact (ih h).trans (List.suffix_cons t ts)
    · cases h
      exact List.suffix_rfl

theorem advance_of_misfit (h : misfit stack (t :: ts) = some (t :: ts)) :
    advance stack t = none := by
  rw [misfit] at h
  split at h
  · exact absurd (misfit_suffix h).length_le (Nat.not_succ_le_self _)
  · assumption

/-- All tokens before a misfit could come next, one after another. -/
theorem advanceAll_of_misfit {us : List TokenKind} (h : misfit stack (us ++ ts) = some ts) :
    ∃ after, advanceAll stack us = some after ∧ misfit after ts = some ts := by
  induction us generalizing stack with
  | nil => exact ⟨stack, rfl, h⟩
  | cons u us ih =>
    rw [List.cons_append, misfit] at h
    cases ha : advance stack u with
    | none =>
      have hl : (u :: (us ++ ts)).length = ts.length := by
        simp only [ha, Option.some.injEq] at h
        rw [h]
      simp only [List.length_cons, List.length_append] at hl
      omega
    | some next =>
      simp only [ha] at h
      obtain ⟨after, hn, hm⟩ := ih h
      exact ⟨after, by rw [advanceAll, ha, Option.bind_some, hn], hm⟩

theorem misfit_of_advanceAll {us : List TokenKind} (h : advanceAll stack us = some after) :
    misfit stack (us ++ ts) = misfit after ts := by
  induction us generalizing stack with
  | nil =>
    cases h
    rfl
  | cons u us ih =>
    obtain ⟨next, ha, h⟩ := Option.bind_eq_some_iff.mp h
    rw [List.cons_append, misfit, ha]
    exact ih h

end JackVM.Prediction
