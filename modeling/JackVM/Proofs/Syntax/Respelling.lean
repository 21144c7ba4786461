import Mathlib.Data.List.Forall2
import JackVM.Proofs.Syntax.Renaming

/-!
# The tokens of a renamed subroutine

Renaming changes identifiers and nothing else: token by token, what was there
stays, or the new name stands in the place of the old one.
-/

namespace JackVM.Syntax

def Respelled (x y : String) (kind kind' : TokenKind) : Prop :=
  kind' = kind ∨ kind = .identifier x ∧ kind' = .identifier y

section
variable {x y : String}

theorem Respelled.same (kind : TokenKind) : Respelled x y kind kind := .inl rfl

theorem Respelled.name (z : String) :
    Respelled x y (.identifier z) (.identifier (renameTo x y z)) := by
  unfold renameTo
  split
  · next h => exact .inr ⟨by rw [h], rfl⟩
  · exact .inl rfl

theorem respelled_refl (kinds : List TokenKind) : List.Forall₂ (Respelled x y) kinds kinds :=
  List.forall₂_same.mpr fun kind _ => .same kind

theorem respelled_inParens {kinds kinds' : List TokenKind}
    (h : List.Forall₂ (Respelled x y) kinds kinds') :
    List.Forall₂ (Respelled x y) (inParens kinds) (inParens kinds') :=
  .cons (.same _) (List.rel_append h (respelled_refl _))

theorem respelled_inBraces {kinds kinds' : List TokenKind}
    (h : List.Forall₂ (Respelled x y) kinds kinds') :
    List.Forall₂ (Respelled x y) (inBraces kinds) (inBraces kinds') :=
  .cons (.same _) (List.rel_append h (respelled_refl _))

theorem respelled_flatMap {α : Type} {spell : α → List TokenKind} {change : α → α} {parts : List α}
    (h : ∀ a, List.Forall₂ (Respelled x y) (spell a) (spell (change a))) :
    List.Forall₂ (Respelled x y) (parts.flatMap spell) ((parts.map change).flatMap spell) := by
  induction parts with
  | nil => exact .nil
  | cons first others ih => exact List.rel_append (h first) ih

theorem Callee.tokens_rename (callee : Callee) :
    List.Forall₂ (Respelled x y) callee.tokens (callee.rename x y).tokens := by
  cases callee with
  | own subroutine => exact respelled_refl _
  | member owner subroutine => exact .cons (.name owner) (respelled_refl _)

mutual
theorem Term.tokens_rename :
    (t : Term) → List.Forall₂ (Respelled x y) t.tokens (t.rename x y).tokens
  | .integer _ | .string _ | .constant _ => respelled_refl _
  | .variable name => .cons (.name name) .nil
  | .element array index =>
    .cons (.name array) (.cons (.same _) (List.rel_append index.tokens_rename (respelled_refl _)))
  | .group inner => respelled_inParens inner.tokens_rename
  | .unary _ operand => .cons (.same _) operand.tokens_rename
  | .call call => call.tokens_rename
theorem Operand.tokens_rename :
    (o : Operand) → List.Forall₂ (Respelled x y) o.tokens (o.rename x y).tokens
  | .term single => single.tokens_rename
  | .product left _ right =>
    List.rel_append left.tokens_rename (.cons (.same _) right.tokens_rename)
theorem Expression.tokens_rename :
    (e : Expression) → List.Forall₂ (Respelled x y) e.tokens (e.rename x y).tokens
  | .operand single => single.tokens_rename
  | .sum left _ right => List.rel_append left.tokens_rename (.cons (.same _) right.tokens_rename)
theorem Call.tokens_rename :
    (c : Call) → List.Forall₂ (Respelled x y) c.tokens (c.rename x y).tokens
  | .mk callee args =>
    List.rel_append callee.tokens_rename (respelled_inParens (Arguments.tokens_rename args))
theorem Arguments.tokens_rename : (args : List Expression) →
    List.Forall₂ (Respelled x y) (Arguments.tokens args)
      (Arguments.tokens (Arguments.rename x y args))
  | [] => .nil
  | first :: others => List.rel_append first.tokens_rename (Arguments.moreTokens_rename others)
theorem Arguments.moreTokens_rename : (args : List Expression) →
    List.Forall₂ (Respelled x y) (Arguments.moreTokens args)
      (Arguments.moreTokens (Arguments.rename x y args))
  | [] => .nil
  | first :: others =>
    .cons (.same _) (List.rel_append first.tokens_rename (Arguments.moreTokens_rename others))
end

mutual
theorem Statement.tokens_rename :
    (st : Statement) → List.Forall₂ (Respelled x y) st.tokens (st.rename x y).tokens
  | .assign target value =>
    .cons (.same _) (.cons (.name target) (.cons (.same _)
      (List.rel_append value.tokens_rename (respelled_refl _))))
  | .assignElement array index value =>
    .cons (.same _) (.cons (.name array) (.cons (.same _)
      (List.rel_append index.tokens_rename (.cons (.same _) (.cons (.same _)
        (List.rel_append value.tokens_rename (respelled_refl _)))))))
  | .ifThen condition body | .whileLoop condition body =>
    .cons (.same _) (List.rel_append (respelled_inParens condition.tokens_rename)
      (respelled_inBraces (Statements.tokens_rename body)))
  | .ifElse condition body otherwise =>
    .cons (.same _) (List.rel_append (respelled_inParens condition.tokens_rename)
      (List.rel_append (respelled_inBraces (Statements.tokens_rename body))
        (.cons (.same _) (respelled_inBraces (Statements.tokens_rename otherwise)))))
  | .run call => .cons (.same _) (List.rel_append call.tokens_rename (respelled_refl _))
  | .leave none => respelled_refl _
  | .leave (some value) => .cons (.same _) (List.rel_append value.tokens_rename (respelled_refl _))
theorem Statements.tokens_rename : (body : List Statement) →
    List.Forall₂ (Respelled x y) (Statements.tokens body)
      (Statements.tokens (Statements.rename x y body))
  | [] => .nil
  | first :: others => List.rel_append first.tokens_rename (Statements.tokens_rename others)
end

theorem Declarators.tokens_rename (d : Declarators) :
    List.Forall₂ (Respelled x y) d.tokens (d.rename x y).tokens := by
  refine .cons (.same _) (.cons (.name d.first) (List.rel_append ?_ (respelled_refl _)))
  exact respelled_flatMap fun name => .cons (.same _) (.cons (.name name) .nil)

theorem Parameter.tokens_rename (p : Parameter) :
    List.Forall₂ (Respelled x y) p.tokens (p.rename x y).tokens :=
  .cons (.same _) (.cons (.name p.name) .nil)

theorem Parameters.tokens_rename (ps : List Parameter) :
    List.Forall₂ (Respelled x y) (Parameters.tokens ps)
      (Parameters.tokens (ps.map (Parameter.rename x y))) := by
  cases ps with
  | nil => exact .nil
  | cons first others =>
    exact List.rel_append first.tokens_rename
      (respelled_flatMap fun p => .cons (.same _) p.tokens_rename)

theorem Subroutine.tokens_rename (s : Subroutine) :
    List.Forall₂ (Respelled x y) s.tokens (s.rename x y).tokens := by
  refine .cons (.same _) (.cons (.same _) (.cons (.same _)
    (List.rel_append (respelled_inParens (Parameters.tokens_rename s.parameters))
      (respelled_inBraces (List.rel_append ?_ (Statements.tokens_rename s.body))))))
  exact respelled_flatMap fun d => .cons (.same _) d.tokens_rename

/-- Renaming in one subroutine changes nothing else of a class. -/
theorem JackClass.tokens_rename {name : String} {vars : List ClassVariables}
    {before after : List Subroutine} {s : Subroutine} :
    List.Forall₂ (Respelled x y) (⟨name, vars, before ++ s :: after⟩ : JackClass).tokens
      (⟨name, vars, before ++ s.rename x y :: after⟩ : JackClass).tokens := by
  refine .cons (.same _) (.cons (.same _) (respelled_inBraces
    (List.rel_append (respelled_refl _) ?_)))
  rw [List.flatMap_append, List.flatMap_append, List.flatMap_cons, List.flatMap_cons]
  exact List.rel_append (respelled_refl _) (List.rel_append s.tokens_rename (respelled_refl _))

end

end JackVM.Syntax
