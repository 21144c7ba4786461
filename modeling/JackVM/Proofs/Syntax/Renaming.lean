import JackVM.Proofs.Syntax.Code
import JackVM.Proofs.Syntax.Validity

/-!
# Renaming the variables of a subroutine

A name that a subroutine declares may be changed to one that stands nowhere in
the class, wherever the subroutine uses it for a variable. Types, the names of
subroutines and the other subroutines stay as they are. Every name then finds
the same slot as before, so the code is the same.
-/

namespace JackVM

def Variable.unnamed (v : Variable) : String × VariableKind × Nat := (v.type, v.kind, v.index)

namespace Syntax

def renameTo (x y z : String) : String := if z = x then y else z

-- ---------------------------------------------------------------------------
-- Trees
-- ---------------------------------------------------------------------------

section
variable (x y : String)

/-- What stands before the dot may be a variable; what is called is none. -/
def Callee.rename : Callee → Callee
  | .own subroutine => .own subroutine
  | .member owner subroutine => .member (renameTo x y owner) subroutine

mutual
def Term.rename : Term → Term
  | .integer value => .integer value
  | .string value => .string value
  | .constant word => .constant word
  | .variable name => .variable (renameTo x y name)
  | .element array index => .element (renameTo x y array) index.rename
  | .group inner => .group inner.rename
  | .unary op operand => .unary op operand.rename
  | .call call => .call call.rename
def Operand.rename : Operand → Operand
  | .term single => .term single.rename
  | .product left op right => .product left.rename op right.rename
def Expression.rename : Expression → Expression
  | .operand single => .operand single.rename
  | .sum left op right => .sum left.rename op right.rename
def Call.rename : Call → Call
  | .mk callee args => .mk (callee.rename x y) (Arguments.rename args)
def Arguments.rename : List Expression → List Expression
  | [] => []
  | first :: others => first.rename :: Arguments.rename others
end

mutual
def Statement.rename : Statement → Statement
  | .assign target value => .assign (renameTo x y target) (value.rename x y)
  | .assignElement array index value =>
    .assignElement (renameTo x y array) (index.rename x y) (value.rename x y)
  | .ifThen condition body => .ifThen (condition.rename x y) (Statements.rename body)
  | .ifElse condition body otherwise =>
    .ifElse (condition.rename x y) (Statements.rename body) (Statements.rename otherwise)
  | .whileLoop condition body => .whileLoop (condition.rename x y) (Statements.rename body)
  | .run call => .run (call.rename x y)
  | .leave none => .leave none
  | .leave (some value) => .leave (some (value.rename x y))
def Statements.rename : List Statement → List Statement
  | [] => []
  | first :: others => first.rename :: Statements.rename others
end

def Declarators.rename (d : Declarators) : Declarators :=
  { d with first := renameTo x y d.first, others := d.others.map (renameTo x y) }

def Parameter.rename (p : Parameter) : Parameter := { p with name := renameTo x y p.name }

def Subroutine.rename (s : Subroutine) : Subroutine :=
  { s with
    parameters := s.parameters.map (Parameter.rename x y)
    locals := s.locals.map (Declarators.rename x y)
    body := Statements.rename x y s.body }

end

def Subroutine.ownNames (s : Subroutine) : List String :=
  s.parameters.map Parameter.name ++ s.locals.flatMap Declarators.names

-- ---------------------------------------------------------------------------
-- Code
-- ---------------------------------------------------------------------------

/-- Two scopes in which corresponding names find the same slots. Nothing is said
about `y`, which stands nowhere before it is put in the place of `x`. -/
structure Scope.Renames (x y : String) (scope scope' : Scope) : Prop where
  className : scope'.className = scope.className
  returnsVoid : scope'.returnsVoid = scope.returnsVoid
  label : scope'.label = scope.label
  declares : scope.Declares x
  find : ∀ z ≠ y, (scope'.find? (renameTo x y z)).map Variable.unnamed =
    (scope.find? z).map Variable.unnamed

section
variable {x y z : String} {scope scope' : Scope}

/-- What is made of a variable without its name is made of the renamed one. -/
theorem Scope.Renames.map_eq {β : Type} (h : Scope.Renames x y scope scope') (hz : z ≠ y)
    (use : String × VariableKind × Nat → β) :
    (scope'.find? (renameTo x y z)).map (fun v => use v.unnamed) =
      (scope.find? z).map fun v => use v.unnamed := by
  have hf := congrArg (Option.map use) (h.find z hz)
  rwa [Option.map_map, Option.map_map] at hf

theorem Scope.Renames.push_eq (h : Scope.Renames x y scope scope') (hz : z ≠ y) :
    scope'.push (renameTo x y z) = scope.push z := by
  have hp := h.map_eq hz fun (_, kind, index) => Instruction.push kind.segment index
  unfold Scope.push
  rw [← Option.toList_map, ← Option.toList_map]
  exact congrArg Option.toList hp

theorem Scope.Renames.pop_eq (h : Scope.Renames x y scope scope') (hz : z ≠ y) :
    scope'.pop (renameTo x y z) = scope.pop z := by
  have hp := h.map_eq hz fun (_, kind, index) => Instruction.pop kind.segment index
  unfold Scope.pop
  rw [← Option.toList_map, ← Option.toList_map]
  exact congrArg Option.toList hp

theorem Scope.Renames.receiverCode_eq (h : Scope.Renames x y scope scope') {callee : Callee}
    (hy : .identifier y ∉ callee.tokens) :
    (callee.rename x y).receiverCode scope' = callee.receiverCode scope := by
  cases callee with
  | own subroutine => rfl
  | member owner subroutine =>
    have hz : owner ≠ y := by
      rintro rfl
      simp [Callee.tokens] at hy
    exact h.push_eq hz

/-- A call goes to the class of the variable before the dot, whatever its name;
what is no variable is the name of a class and stays as it is. -/
theorem Scope.Renames.label_eq (h : Scope.Renames x y scope scope') {callee : Callee}
    (hy : .identifier y ∉ callee.tokens) :
    (callee.rename x y).label scope' = callee.label scope := by
  cases callee with
  | own subroutine => exact congrArg (· ++ "." ++ subroutine) h.className
  | member owner subroutine =>
    have hz : owner ≠ y := by
      rintro rfl
      simp [Callee.tokens] at hy
    have ht : (scope'.find? (renameTo x y owner)).map Variable.type =
        (scope.find? owner).map Variable.type := h.map_eq hz Prod.fst
    show (Option.getD _ _) ++ "." ++ subroutine = (Option.getD _ _) ++ "." ++ subroutine
    rw [ht]
    by_cases hx : owner = x
    · subst hx
      obtain ⟨v, hv⟩ := Option.isSome_iff_exists.mp h.declares
      rw [hv]
      rfl
    · rw [renameTo, if_neg hx]

end

@[simp] theorem identifier_mem_inParens {name : String} {kinds : List TokenKind} :
    .identifier name ∈ inParens kinds ↔ .identifier name ∈ kinds := by
  simp [inParens]

@[simp] theorem identifier_mem_inBraces {name : String} {kinds : List TokenKind} :
    .identifier name ∈ inBraces kinds ↔ .identifier name ∈ kinds := by
  simp [inBraces]

theorem Arguments.length_rename (x y : String) (args : List Expression) :
    (Arguments.rename x y args).length = args.length := by
  induction args with
  | nil => rfl
  | cons first others ih => exact congrArg (· + 1) ih

theorem Arguments.mem_moreTokens {kind : TokenKind} {args : List Expression}
    (h : kind ∈ Arguments.tokens args) : kind ∈ Arguments.moreTokens args := by
  cases args with
  | nil => exact h
  | cons first others => exact List.mem_cons_of_mem _ h

section
variable {x y : String} {scope scope' : Scope}

mutual
theorem Term.code_rename (h : Scope.Renames x y scope scope') :
    (t : Term) → .identifier y ∉ t.tokens → (t.rename x y).code scope' = t.code scope
  | .integer _, _ | .string _, _ | .constant _, _ => rfl
  | .variable name, hy => by
    simp [Term.tokens] at hy
    exact h.push_eq (Ne.symm hy)
  | .element array index, hy => by
    simp [Term.tokens] at hy
    obtain ⟨ha, hi⟩ := hy
    rw [Term.rename, Term.code, Term.code, h.push_eq (Ne.symm ha), index.code_rename h hi]
  | .group inner, hy => by
    simp [Term.tokens] at hy
    exact inner.code_rename h hy
  | .unary op operand, hy => by
    simp [Term.tokens] at hy
    rw [Term.rename, Term.code, Term.code, operand.code_rename h hy]
  | .call call, hy => call.code_rename h hy
theorem Operand.code_rename (h : Scope.Renames x y scope scope') :
    (o : Operand) → .identifier y ∉ o.tokens → (o.rename x y).code scope' = o.code scope
  | .term single, hy => single.code_rename h hy
  | .product left op right, hy => by
    simp [Operand.tokens] at hy
    obtain ⟨hl, hr⟩ := hy
    rw [Operand.rename, Operand.code, Operand.code, left.code_rename h hl, right.code_rename h hr]
theorem Expression.code_rename (h : Scope.Renames x y scope scope') :
    (e : Expression) → .identifier y ∉ e.tokens → (e.rename x y).code scope' = e.code scope
  | .operand single, hy => single.code_rename h hy
  | .sum left op right, hy => by
    simp [Expression.tokens] at hy
    obtain ⟨hl, hr⟩ := hy
    rw [Expression.rename, Expression.code, Expression.code, left.code_rename h hl,
      right.code_rename h hr]
theorem Call.code_rename (h : Scope.Renames x y scope scope') :
    (c : Call) → .identifier y ∉ c.tokens → (c.rename x y).code scope' = c.code scope
  | .mk callee args, hy => by
    simp [Call.tokens] at hy
    obtain ⟨hc, ha⟩ := hy
    rw [Call.rename, Call.code, Call.code, h.receiverCode_eq hc, h.label_eq hc, Callee.receivers,
      Callee.receivers, h.receiverCode_eq hc, Arguments.code_rename h args ha,
      Arguments.length_rename]
theorem Arguments.code_rename (h : Scope.Renames x y scope scope') :
    (args : List Expression) → .identifier y ∉ Arguments.tokens args →
      Arguments.code scope' (Arguments.rename x y args) = Arguments.code scope args
  | [], _ => rfl
  | first :: others, hy => by
    simp [Arguments.tokens] at hy
    obtain ⟨hf, ho⟩ := hy
    rw [Arguments.rename, Arguments.code, Arguments.code, first.code_rename h hf,
      Arguments.code_rename h others fun hm => ho (Arguments.mem_moreTokens hm)]
end

mutual
theorem Statement.labels_rename : (st : Statement) → (st.rename x y).labels = st.labels
  | .assign _ _ | .assignElement _ _ _ | .run _ | .leave none | .leave (some _) => rfl
  | .ifThen _ body => congrArg (2 + ·) (Statements.labels_rename body)
  | .ifElse _ body otherwise => by
    rw [Statement.rename, Statement.labels, Statement.labels, Statements.labels_rename body,
      Statements.labels_rename otherwise]
  | .whileLoop _ body => congrArg (2 + ·) (Statements.labels_rename body)
theorem Statements.labels_rename : (body : List Statement) →
    Statements.labels (Statements.rename x y body) = Statements.labels body
  | [] => rfl
  | first :: others => by
    rw [Statements.rename, Statements.labels, Statements.labels, first.labels_rename,
      Statements.labels_rename others]
end

theorem Scope.Renames.branchCode_eq (h : Scope.Renames x y scope scope') {condition : Expression}
    (hy : .identifier y ∉ condition.tokens) (n : Nat) (body otherwise : List Instruction) :
    branchCode scope' n (condition.rename x y) body otherwise =
      branchCode scope n condition body otherwise := by
  rw [branchCode, branchCode, condition.code_rename h hy, h.label]

theorem Scope.Renames.loopCode_eq (h : Scope.Renames x y scope scope') {condition : Expression}
    (hy : .identifier y ∉ condition.tokens) (n : Nat) (body : List Instruction) :
    loopCode scope' n (condition.rename x y) body = loopCode scope n condition body := by
  rw [loopCode, loopCode, condition.code_rename h hy, h.label]

theorem Scope.Renames.leaveCode_eq (h : Scope.Renames x y scope scope')
    (value : List Instruction) : leaveCode scope' value = leaveCode scope value := by
  rw [leaveCode, leaveCode, h.returnsVoid]

mutual
theorem Statement.code_rename (h : Scope.Renames x y scope scope') :
    (st : Statement) → (n : Nat) → .identifier y ∉ st.tokens →
      (st.rename x y).code scope' n = st.code scope n
  | .assign target value, n, hy => by
    simp [Statement.tokens] at hy
    obtain ⟨ht, hv⟩ := hy
    rw [Statement.rename, Statement.code, Statement.code, value.code_rename h hv,
      h.pop_eq (Ne.symm ht)]
  | .assignElement array index value, n, hy => by
    simp [Statement.tokens] at hy
    obtain ⟨ha, hi, hv⟩ := hy
    rw [Statement.rename, Statement.code, Statement.code, h.push_eq (Ne.symm ha),
      index.code_rename h hi, value.code_rename h hv]
  | .ifThen condition body, n, hy => by
    simp [Statement.tokens] at hy
    obtain ⟨hc, hb⟩ := hy
    rw [Statement.rename, Statement.code, Statement.code, Statements.code_rename h body _ hb,
      h.branchCode_eq hc]
  | .ifElse condition body otherwise, n, hy => by
    simp [Statement.tokens] at hy
    obtain ⟨hc, hb, ho⟩ := hy
    rw [Statement.rename, Statement.code, Statement.code, Statements.code_rename h body _ hb,
      Statements.code_rename h otherwise _ ho, Statements.labels_rename, h.branchCode_eq hc]
  | .whileLoop condition body, n, hy => by
    simp [Statement.tokens] at hy
    obtain ⟨hc, hb⟩ := hy
    rw [Statement.rename, Statement.code, Statement.code, Statements.code_rename h body _ hb,
      h.loopCode_eq hc]
  | .run call, n, hy => by
    simp [Statement.tokens] at hy
    rw [Statement.rename, Statement.code, Statement.code, call.code_rename h hy]
  | .leave none, n, _ => h.leaveCode_eq []
  | .leave (some value), n, hy => by
    simp [Statement.tokens] at hy
    rw [Statement.rename, Statement.code, Statement.code, value.code_rename h hy, h.leaveCode_eq]
theorem Statements.code_rename (h : Scope.Renames x y scope scope') :
    (body : List Statement) → (n : Nat) → .identifier y ∉ Statements.tokens body →
      Statements.code scope' n (Statements.rename x y body) = Statements.code scope n body
  | [], _, _ => rfl
  | first :: others, n, hy => by
    simp [Statements.tokens] at hy
    obtain ⟨hf, ho⟩ := hy
    rw [Statements.rename, Statements.code, Statements.code, first.code_rename h n hf,
      first.labels_rename, Statements.code_rename h others _ ho]
end

-- ---------------------------------------------------------------------------
-- Static conditions
-- ---------------------------------------------------------------------------

theorem Scope.Renames.declares_iff (h : Scope.Renames x y scope scope') {z : String} (hz : z ≠ y) :
    scope'.Declares (renameTo x y z) ↔ scope.Declares z := by
  have hf := congrArg Option.isSome (h.find z hz)
  rw [Option.isSome_map, Option.isSome_map] at hf
  rw [Scope.Declares, Scope.Declares, hf]

theorem Callee.valid_rename (h : Scope.Renames x y scope scope') {callee : Callee} {n : Nat}
    (hy : .identifier y ∉ callee.tokens) (hv : callee.Valid scope.Declares n) :
    (callee.rename x y).Valid scope'.Declares n := by
  cases callee with
  | own subroutine =>
    simp [Callee.tokens] at hy
    have hx : subroutine ≠ x := by rintro rfl; exact hv.1 h.declares
    have hd := h.declares_iff (Ne.symm hy)
    rw [renameTo, if_neg hx] at hd
    exact ⟨mt hd.mp hv.1, hv.2⟩
  | member owner subroutine =>
    simp [Callee.tokens] at hy
    have hd := h.declares_iff (Ne.symm hy.1)
    exact ⟨hv.1, fun hdeclared => hv.2 (hd.mp hdeclared)⟩

mutual
theorem Term.valid_rename (h : Scope.Renames x y scope scope') : (t : Term) →
    .identifier y ∉ t.tokens → t.Valid scope.Declares → (t.rename x y).Valid scope'.Declares
  | .integer _, _, _ | .constant _, _, _ => trivial
  | .string _, _, hv => hv
  | .variable name, hy, hv => by
    simp [Term.tokens] at hy
    exact (h.declares_iff (Ne.symm hy)).mpr hv
  | .element array index, hy, hv => by
    simp [Term.tokens] at hy
    obtain ⟨ha, hi⟩ := hy
    exact ⟨(h.declares_iff (Ne.symm ha)).mpr hv.1, index.valid_rename h hi hv.2⟩
  | .group inner, hy, hv => by
    simp [Term.tokens] at hy
    exact inner.valid_rename h hy hv
  | .unary op operand, hy, hv => by
    simp [Term.tokens] at hy
    exact operand.valid_rename h hy hv
  | .call call, hy, hv => call.valid_rename h hy hv
theorem Operand.valid_rename (h : Scope.Renames x y scope scope') : (o : Operand) →
    .identifier y ∉ o.tokens → o.Valid scope.Declares → (o.rename x y).Valid scope'.Declares
  | .term single, hy, hv => single.valid_rename h hy hv
  | .product left op right, hy, hv => by
    simp [Operand.tokens] at hy
    exact ⟨left.valid_rename h hy.1 hv.1, right.valid_rename h hy.2 hv.2⟩
theorem Expression.valid_rename (h : Scope.Renames x y scope scope') : (e : Expression) →
    .identifier y ∉ e.tokens → e.Valid scope.Declares → (e.rename x y).Valid scope'.Declares
  | .operand single, hy, hv => single.valid_rename h hy hv
  | .sum left op right, hy, hv => by
    simp [Expression.tokens] at hy
    exact ⟨left.valid_rename h hy.1 hv.1, right.valid_rename h hy.2 hv.2⟩
theorem Call.valid_rename (h : Scope.Renames x y scope scope') : (c : Call) →
    .identifier y ∉ c.tokens → c.Valid scope.Declares → (c.rename x y).Valid scope'.Declares
  | .mk callee args, hy, hv => by
    simp [Call.tokens] at hy
    refine ⟨?_, Arguments.valid_rename h args hy.2 hv.2⟩
    rw [Arguments.length_rename]
    exact callee.valid_rename h hy.1 hv.1
theorem Arguments.valid_rename (h : Scope.Renames x y scope scope') : (args : List Expression) →
    .identifier y ∉ Arguments.tokens args → Arguments.Valid scope.Declares args →
      Arguments.Valid scope'.Declares (Arguments.rename x y args)
  | [], _, _ => trivial
  | first :: others, hy, hv => by
    simp [Arguments.tokens] at hy
    obtain ⟨hf, ho⟩ := hy
    exact ⟨first.valid_rename h hf hv.1,
      Arguments.valid_rename h others (fun hm => ho (Arguments.mem_moreTokens hm)) hv.2⟩
end

mutual
theorem Statement.valid_rename (h : Scope.Renames x y scope scope') {void : Bool} :
    (st : Statement) → .identifier y ∉ st.tokens → st.Valid scope.Declares void →
      (st.rename x y).Valid scope'.Declares void
  | .assign target value, hy, hv => by
    simp [Statement.tokens] at hy
    exact ⟨(h.declares_iff (Ne.symm hy.1)).mpr hv.1, value.valid_rename h hy.2 hv.2⟩
  | .assignElement array index value, hy, hv => by
    simp [Statement.tokens] at hy
    obtain ⟨ha, hi, hw⟩ := hy
    exact ⟨(h.declares_iff (Ne.symm ha)).mpr hv.1, index.valid_rename h hi hv.2.1,
      value.valid_rename h hw hv.2.2⟩
  | .ifThen condition body, hy, hv => by
    simp [Statement.tokens] at hy
    exact ⟨condition.valid_rename h hy.1 hv.1, Statements.valid_rename h body hy.2 hv.2⟩
  | .ifElse condition body otherwise, hy, hv => by
    simp [Statement.tokens] at hy
    obtain ⟨hc, hb, ho⟩ := hy
    exact ⟨condition.valid_rename h hc hv.1, Statements.valid_rename h body hb hv.2.1,
      Statements.valid_rename h otherwise ho hv.2.2⟩
  | .whileLoop condition body, hy, hv => by
    simp [Statement.tokens] at hy
    exact ⟨condition.valid_rename h hy.1 hv.1, Statements.valid_rename h body hy.2 hv.2⟩
  | .run call, hy, hv => by
    simp [Statement.tokens] at hy
    exact call.valid_rename h hy hv
  | .leave none, _, hv => hv
  | .leave (some value), hy, hv => by
    simp [Statement.tokens] at hy
    exact value.valid_rename h hy hv
theorem Statements.valid_rename (h : Scope.Renames x y scope scope') {void : Bool} :
    (body : List Statement) → .identifier y ∉ Statements.tokens body →
      Statements.Valid scope.Declares void body →
        Statements.Valid scope'.Declares void (Statements.rename x y body)
  | [], _, _ => trivial
  | first :: others, hy, hv => by
    simp [Statements.tokens] at hy
    exact ⟨first.valid_rename h hy.1 hv.1, Statements.valid_rename h others hy.2 hv.2⟩
end

end

end Syntax

end JackVM
