import JackVM.Proofs.Prediction.Steps

/-!
# Reading by the table

What each reading step makes of the stack: a token that has to come next is an
item of its own, and looking at a token decides between two stacks that fit the
same tokens from there on.
-/

namespace JackVM.Prediction

open TokenStream Compile
open Syntax (Clear clear_cons clear_nil)

variable {ω α : Type} {n : Nat} {item : Item} {stack before yes no : List Item}
  {kind : TokenKind}

-- ---------------------------------------------------------------------------
-- Tokens that have to come next
-- ---------------------------------------------------------------------------

theorem follows_check (expected expected' : Expectation) (kind : TokenKind) :
    stream.Follows ⟨n + 1, .kind kind :: stack⟩
      (do let t ← Reading.take expected
          if t.kind = kind then return () else Reading.unexpected expected' t)
      fun _ => ⟨n, stack⟩ := by
  refine follows_take (takes_take _) rfl fun t => ?_
  by_cases h : t.kind = kind
  · rw [if_pos h]
    exact .inl ⟨[], if_pos h, follows_pure rfl⟩
  · rw [if_neg h]
    exact .inr ⟨if_neg h, rejects_unexpected _ _⟩

theorem follows_symbol (c : Char) :
    stream.Follows ⟨n + 1, symbol c :: stack⟩ (Reading.symbol c) fun _ => ⟨n, stack⟩ :=
  follows_check _ _ _

theorem follows_keyword (word : Keyword) :
    stream.Follows ⟨n + 1, .kind (.keyword word) :: stack⟩ (Reading.keyword word)
      fun _ => ⟨n, stack⟩ :=
  follows_check _ _ _

theorem follows_name (expected : Expectation) :
    stream.Follows ⟨n + 1, .name :: stack⟩ (Reading.name expected) fun _ => ⟨n, stack⟩ := by
  refine follows_take (takes_take _) rfl fun t => ?_
  obtain ⟨kind, span⟩ := t
  cases kind with
  | identifier name => exact .inl ⟨[], rfl, follows_pure rfl⟩
  | _ => exact .inr ⟨rfl, rejects_unexpected _ _⟩

theorem follows_typeName :
    stream.Follows ⟨n + 1, .type :: stack⟩ typeName fun _ => ⟨n, stack⟩ := by
  refine follows_take (takes_take _) rfl fun t => ?_
  obtain ⟨kind, span⟩ := t
  cases kind with
  | keyword word =>
    cases word <;>
      first
      | exact .inl ⟨[], rfl, follows_pure rfl⟩
      | exact .inr ⟨rfl, rejects_unexpected _ _⟩
  | identifier name => exact .inl ⟨[], rfl, follows_pure rfl⟩
  | _ => exact .inr ⟨rfl, rejects_unexpected _ _⟩

-- ---------------------------------------------------------------------------
-- Looking at what comes next
-- ---------------------------------------------------------------------------

theorem clear_other {t : TokenKind} {ts : List TokenKind} (h : t ≠ kind) :
    Clear [kind] (t :: ts) := clear_cons fun hm => h (List.mem_singleton.mp hm)

/-- Where an item has to be there, it may be said what it starts with. -/
theorem misfit_required (required : Item) (more : List Item) {ts : List TokenKind}
    (hr : required.nullable = false)
    (he : ∀ t ∈ ts.head?, item.expand t = (required.expand t).map (· ++ more))
    (hs : item.nullable = true → misfit stack ts = some ts) :
    misfit (item :: stack) ts = misfit (required :: (more ++ stack)) ts := by
  have hstuck (h : ∀ t ∈ ts.head?, item.expand t = none) : misfit (item :: stack) ts = some ts := by
    cases hn : item.nullable with
    | true => exact (misfit_pass hn h).trans (hs hn)
    | false =>
      cases ts with
      | nil => exact misfit_end hn
      | cons t ts => exact misfit_stuck (h t rfl) hn
  cases ts with
  | nil => rw [hstuck nofun, misfit_end hr]
  | cons t ts =>
    have ht := he t rfl
    cases hx : required.expand t with
    | some items =>
      rw [hx, Option.map_some] at ht
      rw [misfit_expand ht, misfit_expand hx, List.append_assoc]
    | none =>
      rw [hx, Option.map_none] at ht
      rw [misfit_stuck hx hr, hstuck (by rintro _ ⟨⟩; exact ht)]

theorem misfit_symbol_other {c : Char} {ts : List TokenKind} (h : Clear [.symbol c] ts) :
    misfit (symbol c :: stack) ts = some ts := by
  cases ts with
  | nil => exact misfit_end rfl
  | cons t ts => exact misfit_stuck (if_neg (h.ne rfl)) rfl

theorem follows_isNext (hy : ∀ ts, misfit before (kind :: ts) = misfit yes (kind :: ts))
    (hn : ∀ ts, Clear [kind] ts → misfit before ts = misfit no ts) :
    stream.Follows ⟨n, before⟩ (Reading.isNext kind)
      fun found => ⟨n, bif found then yes else no⟩ := by
  rintro ⟨_ | ⟨⟨t, span⟩ | _, rest⟩, stop⟩ hk hr
  · exact .ok hk (.refl _) hr (hn _ clear_nil)
  · show stream.Lands _ _ _ (.ok (decide (t = kind)) _)
    by_cases h : t = kind
    · subst h
      rw [decide_eq_true rfl]
      exact .ok hk (.refl _) hr (hy _)
    · rw [decide_eq_false h]
      exact .ok hk (.refl _) hr (hn _ (clear_other h))
  · exact .lexical ..

theorem follows_accept (hy : ∀ ts, misfit before (kind :: ts) = misfit yes ts)
    (hn : ∀ ts, Clear [kind] ts → misfit before ts = misfit no ts) :
    stream.Follows ⟨n + 1, before⟩ (Reading.accept kind)
      fun found => bif found then ⟨n, yes⟩ else ⟨n + 1, no⟩ := by
  rintro ⟨_ | ⟨⟨t, span⟩ | _, rest⟩, stop⟩ hk hr
  · exact .ok hk (.refl _) hr (hn _ clear_nil)
  · by_cases h : t = kind
    · subst h
      rw [Reading.accept_token]
      exact .ok hk (leads_token ..) (Nat.le_of_succ_le_succ hr) (hy _)
    · rw [Reading.accept_other h]
      exact .ok hk (.refl _) hr (hn _ (clear_other h))
  · exact .lexical ..

/-- An optional item with one first token is passed over unless that comes next. -/
theorem follows_acceptItem {items : List Item} (hn : item.nullable = true)
    (he : ∀ t, item.expand t = if t = kind then some items else none) :
    stream.Follows ⟨n + 1, item :: stack⟩ (Reading.accept kind)
      fun found => bif found then ⟨n, items ++ stack⟩ else ⟨n + 1, stack⟩ :=
  follows_accept (fun _ => misfit_expand ((he kind).trans (if_pos rfl))) fun _ hc =>
    misfit_pass hn fun t ht => (he t).trans (if_neg (hc.ne ht))

theorem follows_nextKeyword {after : Option Keyword → List Item}
    (hs : ∀ word ts, misfit before (.keyword word :: ts) =
      misfit (after (some word)) (.keyword word :: ts))
    (hn : ∀ ts, (∀ t ∈ ts.head?, word? t = none) → misfit before ts = misfit (after none) ts) :
    stream.Follows ⟨n, before⟩ Reading.nextKeyword fun word => ⟨n, after word⟩ := by
  rintro ⟨_ | ⟨⟨kind, span⟩ | _, rest⟩, stop⟩ hk hr
  · exact .ok hk (.refl _) hr (hn _ nofun)
  · cases kind with
    | keyword word => exact .ok hk (.refl _) hr (hs word _)
    | _ => exact .ok hk (.refl _) hr (hn _ (by rintro _ ⟨⟩; rfl))
  · exact .lexical ..

structure Picks (pick : TokenKind → Option α) (x : Reading (Option α)) : Prop where
  token : ∀ kind span rest stop, x ⟨.token ⟨kind, span⟩ :: rest, stop⟩ =
    match pick kind with
    | some a => .ok (some a) ⟨rest, stop⟩
    | none => .ok none ⟨.token ⟨kind, span⟩ :: rest, stop⟩
  malformed : ∀ span reason rest stop, ∃ s, x ⟨.malformed span reason :: rest, stop⟩ =
    .error (.inSource span.start (.lexical reason)) s
  stop : ∀ stop, x ⟨[], stop⟩ = .ok none ⟨[], stop⟩

/-- An optional item is passed over unless its first token is picked. -/
theorem follows_pick {pick : TokenKind → Option α} {x : Reading (Option α)} (hx : Picks pick x)
    {items : List Item} (hn : item.nullable = true)
    (he : ∀ t, item.expand t = (pick t).map fun _ => items) :
    stream.Follows ⟨n + 1, item :: stack⟩ x
      fun found => bif found.isSome then ⟨n, items ++ stack⟩ else ⟨n + 1, stack⟩ := by
  rintro ⟨_ | ⟨⟨kind, span⟩ | ⟨span, reason⟩, rest⟩, stop⟩ hk hr
  · rw [hx.stop]
    exact .ok hk (.refl _) hr (misfit_pass hn nofun)
  · have hkind := he kind
    rw [hx.token]
    cases hp : pick kind with
    | some a =>
      rw [hp] at hkind
      exact .ok hk (leads_token ..) (Nat.le_of_succ_le_succ hr) (misfit_expand hkind)
    | none =>
      rw [hp] at hkind
      exact .ok hk (.refl _) hr (misfit_pass hn (by rintro _ ⟨⟩; exact hkind))
  · obtain ⟨s, hx⟩ := hx.malformed span reason rest stop
    rw [hx]
    constructor

theorem picks_acceptWord (choose : Keyword → Option α) :
    Picks (fun t => (word? t).bind choose) (acceptWord choose) where
  token kind span rest stop := by
    cases kind with
    | keyword word =>
      unfold acceptWord
      rw [bind_run (Reading.nextKeyword_token ..), word?, Option.bind_some]
      cases choose word <;> rfl
    | _ => rfl
  malformed span reason rest stop := ⟨_, rfl⟩
  stop _ := rfl

theorem picks_acceptOperator (level : OperatorLevel) :
    Picks (fun t => (char? t).bind (BinaryOperator.ofSymbol? level)) (acceptOperator level) where
  token kind span rest stop := by
    cases kind with
    | symbol c =>
      unfold acceptOperator
      rw [bind_run (Reading.peek_token ..), char?, Option.bind_some]
      dsimp only
      cases BinaryOperator.ofSymbol? level c <;> rfl
    | _ => rfl
  malformed span reason rest stop := ⟨_, rfl⟩
  stop _ := rfl

/-- Only a name makes a difference to what may follow the first token of a term. -/
theorem termItems_other {t : TokenKind} (h : startsName t = false) (tail tail' : Item) :
    termItems tail t = termItems tail' t := by
  unfold termItems
  split <;> first | rfl | cases h

theorem misfit_term_other {t : TokenKind} {ts : List TokenKind} (h : startsName t = false) :
    misfit (.term :: stack) (t :: ts) = misfit (.simpleTerm :: stack) (t :: ts) := by
  refine misfit_congr ?_
  simp only [advance, Item.expand, termItems_other h .termTail .index]
  rfl

theorem misfit_term_name {name : String} {ts : List TokenKind}
    (h : Clear [.symbol '(', .symbol '.'] ts) :
    misfit (.term :: stack) (.identifier name :: ts) =
      misfit (.simpleTerm :: stack) (.identifier name :: ts) := by
  show misfit (.termTail :: stack) ts = misfit (.index :: stack) ts
  cases ts with
  | nil => rfl
  | cons t ts =>
    have ht := h t rfl
    simp only [List.mem_cons, List.not_mem_nil, or_false, not_or] at ht
    refine misfit_congr ?_
    simp only [advance, Item.expand, callItems, ht, if_false, Item.nullable]

theorem misfit_term_call {name : String} {t : TokenKind} {ts : List TokenKind}
    (h : t = .symbol '(' ∨ t = .symbol '.') :
    misfit (.term :: stack) (.identifier name :: t :: ts) =
      misfit (.name :: .callTail :: stack) (.identifier name :: t :: ts) := by
  rcases h with rfl | rfl <;> rfl

theorem follows_atCall :
    stream.Follows ⟨n, .term :: stack⟩ atCall
      fun call => ⟨n, bif call then .name :: .callTail :: stack else .simpleTerm :: stack⟩ := by
  rintro ⟨_ | ⟨⟨kind, span⟩ | _, rest⟩, stop⟩ hk hr
  · exact .ok hk (.refl _) hr rfl
  · cases kind with
    | identifier name =>
      obtain _ | ⟨⟨next, span'⟩ | _, rest⟩ := rest
      · exact .ok hk (.refl _) hr (misfit_term_name clear_nil)
      · cases next with
        | symbol c =>
          show stream.Lands _ _ _ (.ok (c = '(' || c = '.') _)
          generalize hc : (decide (c = '(') || decide (c = '.')) = call
          cases call with
          | true =>
            have hcall : TokenKind.symbol c = .symbol '(' ∨ TokenKind.symbol c = .symbol '.' := by
              simpa using hc
            exact .ok hk (.refl _) hr (misfit_term_call hcall)
          | false => exact .ok hk (.refl _) hr (misfit_term_name (clear_cons (by simpa using hc)))
        | _ => exact .ok hk (.refl _) hr (misfit_term_name (clear_cons (by simp)))
      · exact .lexical _ _ _
    | _ =>
      obtain _ | ⟨⟨next, span'⟩ | _, rest⟩ := rest
      · exact .ok hk (.refl _) hr (misfit_term_other rfl)
      · exact .ok hk (.refl _) hr (misfit_term_other rfl)
      · exact .lexical _ _ _
  · exact .lexical _ _ _

theorem follows_returnType :
    stream.Follows ⟨n + 1, .signature :: stack⟩ returnType
      fun returnsVoid => ⟨n, subroutineItems returnsVoid ++ stack⟩ := by
  have hvoid (ts : List TokenKind) : misfit (.signature :: stack) (.keyword .voidWord :: ts) =
      misfit (subroutineItems true ++ stack) ts := misfit_expand rfl
  have htype (ts : List TokenKind) (h : Clear [.keyword .voidWord] ts) :
      misfit (.signature :: stack) ts = misfit (.type :: (subroutineItems false ++ stack)) ts := by
    refine misfit_required .type (subroutineItems false) rfl (fun t ht => ?_) nofun
    simp only [Item.expand, if_neg (h.ne ht)]
    split <;> rfl
  refine (follows_accept hvoid htype).bind fun found => ?_
  cases found with
  | true => exact follows_pure rfl
  | false => exact follows_typeName.bind fun _ => follows_pure rfl

-- ---------------------------------------------------------------------------
-- Reading in a compilation
-- ---------------------------------------------------------------------------

section
variable {v : Option Bool} {bound : Nat}

theorem covers_symbol (c : Char) :
    (within v).Covers n [symbol c] (liftM (Reading.symbol c) : Compile ω Unit) :=
  fun _ => ((follows_symbol c).mono (Nat.le_succ n)).lift

theorem covers_name (expected : Expectation) :
    (within v).Covers n [.name] (liftM (Reading.name expected) : Compile ω Reading.Named) :=
  fun _ => ((follows_name expected).mono (Nat.le_succ n)).lift

theorem covers_typeName : (within v).Covers n [.type] (liftM typeName : Compile ω String) :=
  fun _ => follows_typeName.loosen.lift

theorem covers_repeatAfter {kind : TokenKind} {items : List Item} {link : Item}
    {item : Compile ω Unit} (h : (within v).Covers bound items item)
    (hn : link.nullable = true)
    (he : ∀ t, link.expand t = if t = kind then some (items ++ [link]) else none) :
    (within v).Covers bound [link] (repeatAfter bound kind item) := by
  refine fun stack => View.Follows.repeatWhile (fun n hb => ?_) (misfit_pass hn nofun)
  refine (follows_acceptItem hn he).lift.bind fun found => ?_
  cases found with
  | true =>
    rw [List.append_assoc]
    exact (h.mono (Nat.le_of_lt hb) _).bind fun _ => follows_pure rfl
  | false => exact follows_pure rfl

/-- A token that is looked at may be why the step that looks at it gives up. -/
theorem follows_isNext_bind {f : Bool → Compile ω α} {after : α → Expected}
    (hy : ∀ span rest stop context out,
      (within v).Lands before ⟨.token ⟨kind, span⟩ :: rest, stop⟩ after
        (f true ⟨⟨.token ⟨kind, span⟩ :: rest, stop⟩, context, out⟩))
    (hn : ∀ ts, Clear [kind] ts → misfit before ts = misfit no ts)
    (h : (within v).Follows ⟨n, no⟩ (f false) after) :
    (within v).Follows ⟨n, before⟩ (liftM (Reading.isNext kind) >>= f) after := by
  rintro ⟨⟨_ | ⟨⟨t, span⟩ | _, rest⟩, stop⟩, context, out⟩ hk hr
  · exact (h _ hk hr).from (.refl _) (hn _ clear_nil)
  · show (within v).Lands _ _ _ (f (decide (t = kind)) _)
    by_cases ht : t = kind
    · subst ht
      rw [decide_eq_true rfl]
      exact hy _ _ _ _ _
    · rw [decide_eq_false ht]
      exact (h _ hk hr).from (.refl _) (hn _ (clear_other ht))
  · exact .lexical _ _ _

theorem follows_end :
    (within v).Follows ⟨n, []⟩
      (do match ← Reading.peek with
          | some t => Reading.unexpected .endOfInput t
          | none => return () : Compile ω Unit)
      fun _ => ⟨n, []⟩ := by
  rintro ⟨⟨_ | ⟨⟨t, span⟩ | _, rest⟩, stop⟩, context, out⟩ hk hr
  · exact .ok hk (.refl _) hr rfl
  · exact .unexpected (.refl _) (.token _ _ _ _) rfl
  · exact .lexical _ _ _

end

end JackVM.Prediction
